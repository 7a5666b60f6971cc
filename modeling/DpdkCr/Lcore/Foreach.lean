import DpdkCr.Lcore.Next
import Mathlib.Data.List.Sort
import Mathlib.Order.Basic

/-!
# Loops over the slave lcores

`rte_lcore_foreach_slave` and `rte_lcore_foreach_worker` of `inlines.cr` go from one
slave lcore to the next, starting from the index before zero. The second one numbers
the lcores and stops at a limit, which it compares with the number of the lcore to
come.

## Main definitions

* `slaveLcores` — the lcores that the loops are about, in increasing order
* `rteLcoreForeachSlave`, `rteLcoreForeachWorker` — the loops, around any block

## Main results

* `slavesFrom_eq` — the search finds the head of the remaining slave lcores
* `rteLcoreForeachSlave_yields`, `rteLcoreForeachWorker_yields` — what the blocks get
-/

namespace DpdkCr

open Semantics

section Functions

variable {σ : Type*} (rteMaxLcore : UInt32) (cfg : RteConfig)

/-- One pass of `rte_lcore_foreach_slave`: the lcore, and what the block works on. -/
def slavePass (fuel : ℕ) (block : UInt32 → σ → σ) : UInt32 × σ → Option (Pass (UInt32 × σ) σ)
  | (lcoreId, s) =>
    if lcoreId < rteMaxLcore then
      let s := block lcoreId s
      (rteGetNextLcore rteMaxLcore cfg fuel lcoreId 1 0).map fun lcoreId => .again (lcoreId, s)
    else some (.leave s)

/-- `rte_lcore_foreach_slave`. The fuel bounds each of its loops. -/
def rteLcoreForeachSlave (fuel : ℕ) (block : UInt32 → σ → σ) (s : σ) : Option σ :=
  (rteGetNextLcore rteMaxLcore cfg fuel 0xffffffff 1 0).bind fun lcoreId =>
    iterate (slavePass rteMaxLcore cfg fuel block) fuel (lcoreId, s)

/-- One pass of `rte_lcore_foreach_worker`. -/
def workerPass (fuel : ℕ) (limit : Option ℕ) (block : UInt32 → ℕ → σ → σ) :
    UInt32 × ℕ × σ → Option (Pass (UInt32 × ℕ × σ) σ)
  | (lcoreId, workerId, s) =>
    if lcoreId < rteMaxLcore then
      let s := block lcoreId workerId s
      (rteGetNextLcore rteMaxLcore cfg fuel lcoreId 1 0).map fun lcoreId =>
        let workerId := workerId + 1
        -- by now this is the number of the lcore to come
        if limit.any (workerId > ·) then .leave s else .again (lcoreId, workerId, s)
    else some (.leave s)

/-- `rte_lcore_foreach_worker`. -/
def rteLcoreForeachWorker (fuel : ℕ) (limit : Option ℕ) (block : UInt32 → ℕ → σ → σ) (s : σ) :
    Option σ :=
  (rteGetNextLcore rteMaxLcore cfg fuel 0xffffffff 1 0).bind fun lcoreId =>
    iterate (workerPass rteMaxLcore cfg fuel limit block) fuel (lcoreId, 0, s)

/-- The enabled lcores other than the master, in increasing order. -/
def slaveLcores : List UInt32 :=
  ((List.range rteMaxLcore.toNat).map UInt32.ofNat).filter (Eligible rteMaxLcore cfg 1)

/-- The slave lcores from `a` on. -/
def slavesFrom (a : UInt32) : List UInt32 := (slaveLcores rteMaxLcore cfg).filter (a ≤ ·)

end Functions

variable {σ : Type*} {rteMaxLcore : UInt32} {cfg : RteConfig} {a r : UInt32} {fuel : ℕ}

/-! ### The slave lcores -/

theorem mem_slaveLcores {lcoreId : UInt32} :
    lcoreId ∈ slaveLcores rteMaxLcore cfg ↔ Eligible rteMaxLcore cfg 1 lcoreId := by
  rw [slaveLcores, List.mem_filter, decide_eq_true_iff]
  refine and_iff_right_of_imp ?_
  intro eligible
  have below := UInt32.lt_iff_toNat_lt.mp eligible.lt
  exact List.mem_map.mpr ⟨lcoreId.toNat, List.mem_range.mpr below, UInt32.ofNat_toNat⟩

theorem pairwise_slaveLcores : (slaveLcores rteMaxLcore cfg).Pairwise (· < ·) := by
  apply List.Pairwise.filter
  rw [List.pairwise_map]
  refine List.pairwise_lt_range.imp_of_mem ?_
  intro m n first second order
  have limit := rteMaxLcore.toNat_lt
  rw [List.mem_range] at first second
  rw [UInt32.lt_iff_toNat_lt, UInt32.toNat_ofNat', UInt32.toNat_ofNat',
    Nat.mod_eq_of_lt (by omega), Nat.mod_eq_of_lt (by omega)]
  exact order

theorem length_slaveLcores_le : (slaveLcores rteMaxLcore cfg).length ≤ rteMaxLcore.toNat := by
  refine (List.length_filter_le _ _).trans ?_
  rw [List.length_map, List.length_range]

theorem mem_slavesFrom {lcoreId : UInt32} :
    lcoreId ∈ slavesFrom rteMaxLcore cfg a ↔
      Eligible rteMaxLcore cfg 1 lcoreId ∧ a ≤ lcoreId := by
  rw [slavesFrom, List.mem_filter, mem_slaveLcores, decide_eq_true_iff]

theorem slavesFrom_zero : slavesFrom rteMaxLcore cfg 0 = slaveLcores rteMaxLcore cfg :=
  List.filter_eq_self.mpr fun _ _ => decide_eq_true UInt32.zero_le

/-- The first index from `a` on is the head of the slave lcores from `a` on. -/
theorem slavesFrom_eq (first : IsFirst rteMaxLcore cfg 1 a r) :
    slavesFrom rteMaxLcore cfg a =
      if r < rteMaxLcore then r :: slavesFrom rteMaxLcore cfg (r + 1) else [] := by
  obtain ⟨above, stop, before⟩ := first
  split
  case isTrue below =>
    have eligible : Eligible rteMaxLcore cfg 1 r :=
      stop.resolve_right (UInt32.not_le.mpr below)
    -- an index below the limit is not the largest one
    have next (j : UInt32) : r + 1 ≤ j ↔ r < j := by
      have limit := rteMaxLcore.toNat_lt
      rw [UInt32.lt_iff_toNat_lt] at below
      rw [UInt32.le_iff_toNat_le, UInt32.lt_iff_toNat_lt, UInt32.toNat_add, UInt32.toNat_one,
        Nat.mod_eq_of_lt (by omega)]
      exact Iff.rfl
    -- both sides are increasing and have the same members
    refine (pairwise_slaveLcores.filter _).eq_of_mem_iff
      (List.pairwise_cons.mpr ⟨?_, pairwise_slaveLcores.filter _⟩) ?_
    · intro j later
      exact (next j).mp (mem_slavesFrom.mp later).2
    · intro j
      rw [← slavesFrom, mem_slavesFrom, List.mem_cons, mem_slavesFrom, next]
      constructor
      · rintro ⟨other, later⟩
        rcases UInt32.lt_or_eq_of_le (UInt32.not_lt.mp fun earlier => before j later earlier other)
          with beyond | same
        · exact Or.inr ⟨other, beyond⟩
        · exact Or.inl same.symm
      · rintro (rfl | ⟨other, beyond⟩)
        · exact ⟨eligible, above⟩
        · exact ⟨other, UInt32.le_trans above (UInt32.le_of_lt beyond)⟩
  case isFalse beyond =>
    rw [List.eq_nil_iff_forall_not_mem]
    intro j member
    obtain ⟨other, later⟩ := mem_slavesFrom.mp member
    exact before j later (UInt32.lt_of_lt_of_le other.lt (UInt32.not_lt.mp beyond)) other

/-! ### The loops -/

variable {s : σ}

/-- The loop at the first slave lcore from `a` on hands the block those from there on. -/
theorem iterate_slavePass (enough : rteMaxLcore.toNat < fuel) (block : UInt32 → σ → σ)
    {passes : ℕ} (first : IsFirst rteMaxLcore cfg 1 a r)
    (room : (slavesFrom rteMaxLcore cfg a).length < passes) :
    iterate (slavePass rteMaxLcore cfg fuel block) passes (r, s) =
      some ((slavesFrom rteMaxLcore cfg a).foldl (fun s lcoreId => block lcoreId s) s) := by
  -- each pass takes the head of the slave lcores that are left
  induction passes generalizing a r s with
  | zero => exact absurd room (Nat.not_lt_zero _)
  | succ passes ih =>
      rw [slavesFrom_eq first] at room ⊢
      by_cases below : r < rteMaxLcore
      · rw [if_pos below] at room ⊢
        obtain ⟨next, further, found⟩ := rteGetNextLcore_up rteMaxLcore cfg 1 r
        have step : slavePass rteMaxLcore cfg fuel block (r, s) =
            some (.again (next, block r s)) := by
          rw [slavePass, if_pos below, found fuel enough]
          rfl
        rw [iterate_succ_again step, List.foldl_cons]
        exact ih further (Nat.lt_of_succ_lt_succ room)
      · have ends : slavePass rteMaxLcore cfg fuel block (r, s) = some (.leave s) := if_neg below
        rw [if_neg below]
        exact iterate_succ_leave ends passes

/-- The search for the first lcore starts at zero. -/
theorem first_of_start (rteMaxLcore : UInt32) (cfg : RteConfig) :
    ∃ r, IsFirst rteMaxLcore cfg 1 0 r ∧ ∀ fuel, rteMaxLcore.toNat < fuel →
      rteGetNextLcore rteMaxLcore cfg fuel 0xffffffff 1 0 = some r :=
  rteGetNextLcore_up rteMaxLcore cfg 1 0xffffffff

theorem rteLcoreForeachSlave_yields (enough : rteMaxLcore.toNat < fuel)
    (block : UInt32 → σ → σ) :
    rteLcoreForeachSlave rteMaxLcore cfg fuel block s =
      some ((slaveLcores rteMaxLcore cfg).foldl (fun s lcoreId => block lcoreId s) s) := by
  obtain ⟨r, first, found⟩ := first_of_start rteMaxLcore cfg
  rw [rteLcoreForeachSlave, found fuel enough, Option.bind_some, ← slavesFrom_zero]
  refine iterate_slavePass enough block first ?_
  rw [slavesFrom_zero]
  exact length_slaveLcores_le.trans_lt enough

/-- **`rte_lcore_foreach_slave` enumerates the slave lcores**: it ends, and hands every
enabled lcore other than the master to the block, once and in increasing order. -/
theorem rteLcoreForeachSlave_enumerates (rteMaxLcore : UInt32) (cfg : RteConfig) :
    (∀ lcoreId, lcoreId ∈ slaveLcores rteMaxLcore cfg ↔ lcoreId < rteMaxLcore ∧
      rteLcoreIsEnabled rteMaxLcore cfg lcoreId ∧ lcoreId ≠ cfg.masterLcore) ∧
    (slaveLcores rteMaxLcore cfg).Pairwise (· < ·) ∧
    ∀ (σ : Type*) (block : UInt32 → σ → σ) (s : σ) (fuel : ℕ), rteMaxLcore.toNat < fuel →
      rteLcoreForeachSlave rteMaxLcore cfg fuel block s =
        some ((slaveLcores rteMaxLcore cfg).foldl (fun s lcoreId => block lcoreId s) s) := by
  refine ⟨?_, pairwise_slaveLcores, ?_⟩
  · intro lcoreId
    rw [mem_slaveLcores]
    constructor
    · intro eligible
      exact ⟨eligible.lt, eligible.1, eligible.2 rfl⟩
    · rintro ⟨-, enabled, other⟩
      exact ⟨enabled, fun _ => other⟩
  · intro σ block s fuel enough
    exact rteLcoreForeachSlave_yields enough block

/-! ### Workers -/

/-- How many of the first lcores are handed to the block: the one with the number of
the limit is. -/
def workerCount (limit : Option ℕ) (slaves : List UInt32) : ℕ :=
  limit.elim slaves.length (· + 1)

/-- The loop at the first slave lcore from `a` on, with a number that the limit allows,
hands the block those from there on up to the limit, with their numbers. -/
theorem iterate_workerPass (enough : rteMaxLcore.toNat < fuel) (limit : Option ℕ)
    (block : UInt32 → ℕ → σ → σ) {passes workerId : ℕ} (first : IsFirst rteMaxLcore cfg 1 a r)
    (room : (slavesFrom rteMaxLcore cfg a).length < passes)
    (allowed : ∀ bound ∈ limit, workerId ≤ bound) :
    iterate (workerPass rteMaxLcore cfg fuel limit block) passes (r, workerId, s) =
      some ((((slavesFrom rteMaxLcore cfg a).take
        (limit.elim (slavesFrom rteMaxLcore cfg a).length (· + 1 - workerId))).zipIdx
          workerId).foldl (fun s worker => block worker.1 worker.2 s) s) := by
  induction passes generalizing a r s workerId with
  | zero => exact absurd room (Nat.not_lt_zero _)
  | succ passes ih =>
      rw [slavesFrom_eq first] at room ⊢
      by_cases below : r < rteMaxLcore
      · rw [if_pos below] at room ⊢
        obtain ⟨next, further, found⟩ := rteGetNextLcore_up rteMaxLcore cfg 1 r
        have pass : workerPass rteMaxLcore cfg fuel limit block (r, workerId, s) =
            some (if limit.any (workerId + 1 > ·) then .leave (block r workerId s)
              else .again (next, workerId + 1, block r workerId s)) := by
          rw [workerPass, if_pos below, found fuel enough]
          rfl
        have shorter := Nat.lt_of_succ_lt_succ room
        cases limit with
        | none =>
            rw [iterate_succ_again pass, ih further shorter (by simp)]
            simp
        | some bound =>
            have least := allowed bound rfl
            -- the lcore whose number is the limit is the last one to be handed over
            by_cases last : workerId + 1 > bound
            · have stops : workerPass rteMaxLcore cfg fuel (some bound) block (r, workerId, s) =
                  some (.leave (block r workerId s)) := by
                rw [pass, if_pos (by simpa using last)]
              have one : bound + 1 - workerId = 1 := by omega
              rw [iterate_succ_leave stops]
              simp [one]
            · have goes : workerPass rteMaxLcore cfg fuel (some bound) block (r, workerId, s) =
                  some (.again (next, workerId + 1, block r workerId s)) := by
                rw [pass, if_neg (by simpa using last)]
              have more : bound + 1 - workerId = bound + 1 - (workerId + 1) + 1 := by omega
              rw [iterate_succ_again goes,
                ih further shorter (by simpa using Nat.not_lt.mp last)]
              simp [more]
      · have ends : workerPass rteMaxLcore cfg fuel limit block (r, workerId, s) =
            some (.leave s) := if_neg below
        rw [if_neg below, iterate_succ_leave ends]
        simp

theorem rteLcoreForeachWorker_yields (enough : rteMaxLcore.toNat < fuel) (limit : Option ℕ)
    (block : UInt32 → ℕ → σ → σ) :
    rteLcoreForeachWorker rteMaxLcore cfg fuel limit block s =
      some ((((slaveLcores rteMaxLcore cfg).take
        (workerCount limit (slaveLcores rteMaxLcore cfg))).zipIdx).foldl
          (fun s worker => block worker.1 worker.2 s) s) := by
  obtain ⟨r, first, found⟩ := first_of_start rteMaxLcore cfg
  have room : (slavesFrom rteMaxLcore cfg 0).length < fuel := by
    rw [slavesFrom_zero]
    exact length_slaveLcores_le.trans_lt enough
  rw [rteLcoreForeachWorker, found fuel enough, Option.bind_some,
    iterate_workerPass enough limit block first room fun _ _ => Nat.zero_le _, slavesFrom_zero]
  rfl

/-- The pairs that a block gets. -/
def yieldedWorkers (rteMaxLcore : UInt32) (cfg : RteConfig) (fuel : ℕ) (limit : Option ℕ) :
    Option (List (UInt32 × ℕ)) :=
  rteLcoreForeachWorker rteMaxLcore cfg fuel limit
    (fun lcoreId workerId pairs => pairs ++ [(lcoreId, workerId)]) []

theorem yieldedWorkers_eq (enough : rteMaxLcore.toNat < fuel) (limit : Option ℕ) :
    yieldedWorkers rteMaxLcore cfg fuel limit =
      some ((slaveLcores rteMaxLcore cfg).take
        (workerCount limit (slaveLcores rteMaxLcore cfg))).zipIdx := by
  have collect (pairs done : List (UInt32 × ℕ)) :
      pairs.foldl (fun done pair => done ++ [(pair.1, pair.2)]) done = done ++ pairs := by
    induction pairs generalizing done with
    | nil => rw [List.foldl_nil, List.append_nil]
    | cons pair pairs ih => rw [List.foldl_cons, ih, List.append_assoc, List.singleton_append]
  rw [yieldedWorkers, rteLcoreForeachWorker_yields enough, collect, List.nil_append]

/-- The block gets the first slave lcores, as many as the limit says, or all of them
if there is no limit or there are fewer. -/
def HonoursLimit (rteMaxLcore : UInt32) (cfg : RteConfig) (limit : Option ℕ) : Prop :=
  ∀ fuel, rteMaxLcore.toNat < fuel →
    yieldedWorkers rteMaxLcore cfg fuel limit =
      some ((slaveLcores rteMaxLcore cfg).take
        (limit.elim (slaveLcores rteMaxLcore cfg).length
          (min · (slaveLcores rteMaxLcore cfg).length))).zipIdx

/-- **`rte_lcore_foreach_worker` honours its limit** precisely when the limit does not
bite: one more lcore than it says is handed to the block otherwise. -/
theorem honoursLimit_iff (rteMaxLcore : UInt32) (cfg : RteConfig) (limit : Option ℕ) :
    HonoursLimit rteMaxLcore cfg limit ↔
      ∀ bound ∈ limit, (slaveLcores rteMaxLcore cfg).length ≤ bound := by
  constructor
  · intro honours bound given
    obtain rfl := Option.mem_def.mp given
    have same := honours _ rteMaxLcore.toNat.lt_succ_self
    rw [yieldedWorkers_eq rteMaxLcore.toNat.lt_succ_self, Option.some_inj] at same
    have lengths := congrArg List.length same
    simp only [List.length_zipIdx, List.length_take, workerCount, Option.elim_some] at lengths
    omega
  · intro wide fuel enough
    rw [yieldedWorkers_eq enough, Option.some_inj]
    cases limit with
    | none => rfl
    | some bound =>
        have short := wide bound rfl
        rw [workerCount, Option.elim_some, Option.elim_some, Nat.min_eq_right short,
          List.take_of_length_le (by omega), List.take_length]

/-- Four enabled lcores, of which the first is the master. -/
def fourLcores : RteConfig := ⟨0, fun _ => .roleRte⟩

/-- With a limit of one worker, the block gets two. -/
theorem yieldedWorkers_beyond_limit :
    slaveLcores 4 fourLcores = [1, 2, 3] ∧
      yieldedWorkers 4 fourLcores 5 (some 1) = some [(1, 0), (2, 1)] ∧
      ¬ HonoursLimit 4 fourLcores (some 1) := by
  refine ⟨by decide, by decide, ?_⟩
  intro honours
  exact absurd (honours 5 (by decide)) (by decide)

end DpdkCr
