import DpdkCr.Semantics.Iterate
import Mathlib.Data.Nat.Find
import Mathlib.Order.Basic
import Mathlib.Tactic.Set

/-!
# The next lcore

`rte_get_next_lcore` of `inlines.cr` looks for an lcore from the one after a given
index on. Without wrapping it gives up at `RTE_MAX_LCORE`; with wrapping it goes on
at zero, so that it only ends at an lcore that it may return. The index is a 32-bit
number, and the index after the largest one is zero.

## Main definitions

* `rteGetNextLcore` — the search
* `Eligible` — the lcores that it may return

## Main results

* `rteGetNextLcore_up`, `rteGetNextLcore_around` — what it finds without and with wrapping
* `rteGetNextLcore_finds` — both searches end at the right lcore
-/

namespace DpdkCr

open Semantics

/-- `RteLcoreRoleT`. -/
inductive RteLcoreRole
  | roleRte
  | roleOff
  | roleService
  deriving DecidableEq, Repr

/-- The part of `struct RteConfig` that the lcore functions read. -/
structure RteConfig where
  masterLcore : UInt32
  lcoreRole : ℕ → RteLcoreRole

section Functions

variable (rteMaxLcore : UInt32) (cfg : RteConfig)

/-- `rte_lcore_is_enabled`. -/
def rteLcoreIsEnabled (lcoreId : UInt32) : Bool :=
  if lcoreId ≥ rteMaxLcore then false else cfg.lcoreRole lcoreId.toNat = .roleRte

/-- `i += 1` and `i %= RTE_MAX_LCORE if wrap == 1`. -/
def advance (wrap : ℤ) (i : UInt32) : UInt32 :=
  let i := i + 1
  if wrap = 1 then i % rteMaxLcore else i

/-- One pass of the loop of `rte_get_next_lcore`. -/
def nextLcorePass (skipMaster wrap : ℤ) (i : UInt32) : Option (Pass UInt32 UInt32) :=
  if i < rteMaxLcore then
    if ! rteLcoreIsEnabled rteMaxLcore cfg i || (skipMaster = 1 && i = cfg.masterLcore) then
      some (.again (advance rteMaxLcore wrap i))
    else some (.leave i)
  else some (.leave i)

/-- `rte_get_next_lcore`, for at most `fuel` passes of its loop. -/
def rteGetNextLcore (fuel : ℕ) (i : UInt32) (skipMaster wrap : ℤ) : Option UInt32 :=
  iterate (nextLcorePass rteMaxLcore cfg skipMaster wrap) fuel (advance rteMaxLcore wrap i)

/-- An lcore that the search may return: enabled, and not the master if that one is
to be skipped. -/
def Eligible (skipMaster : ℤ) (i : UInt32) : Prop :=
  rteLcoreIsEnabled rteMaxLcore cfg i ∧ (skipMaster = 1 → i ≠ cfg.masterLcore)

instance (skipMaster : ℤ) (i : UInt32) : Decidable (Eligible rteMaxLcore cfg skipMaster i) :=
  inferInstanceAs (Decidable (_ ∧ _))

end Functions

variable {rteMaxLcore : UInt32} {cfg : RteConfig} {skipMaster wrap : ℤ} {i j : UInt32} {fuel : ℕ}

theorem Eligible.lt (eligible : Eligible rteMaxLcore cfg skipMaster i) : i < rteMaxLcore := by
  have enabled := eligible.1
  rw [rteLcoreIsEnabled] at enabled
  split at enabled
  · cases enabled
  · rwa [← UInt32.not_le]

/-! ### One pass -/

theorem nextLcorePass_of_eligible (eligible : Eligible rteMaxLcore cfg skipMaster i) :
    nextLcorePass rteMaxLcore cfg skipMaster wrap i = some (.leave i) := by
  obtain ⟨enabled, other⟩ := eligible
  rw [nextLcorePass, if_pos (Eligible.lt ⟨enabled, other⟩), if_neg]
  simpa [enabled] using other

theorem nextLcorePass_of_not_eligible (below : i < rteMaxLcore)
    (passed : ¬ Eligible rteMaxLcore cfg skipMaster i) :
    nextLcorePass rteMaxLcore cfg skipMaster wrap i =
      some (.again (advance rteMaxLcore wrap i)) := by
  rw [nextLcorePass, if_pos below, if_pos]
  by_contra stays
  refine passed ⟨?_, ?_⟩ <;> simp_all

theorem nextLcorePass_of_ge (beyond : rteMaxLcore ≤ i) :
    nextLcorePass rteMaxLcore cfg skipMaster wrap i = some (.leave i) := by
  rw [nextLcorePass, if_neg (UInt32.not_lt.mpr beyond)]

theorem advance_zero : advance rteMaxLcore 0 i = i + 1 := rfl

theorem advance_one : advance rteMaxLcore 1 i = (i + 1) % rteMaxLcore := rfl

/-- The first number with a property. -/
private theorem exists_first {P : ℕ → Prop} [DecidablePred P] (some : ∃ n, P n) :
    ∃ n, P n ∧ ∀ k < n, ¬ P k :=
  ⟨Nat.find some, Nat.find_spec some, fun _ => Nat.find_min some⟩

/-! ### Without wrapping -/

/-- The first lcore from `a` on, or an index past all of them. -/
def IsFirst (rteMaxLcore : UInt32) (cfg : RteConfig) (skipMaster : ℤ) (a r : UInt32) : Prop :=
  a ≤ r ∧ (Eligible rteMaxLcore cfg skipMaster r ∨ rteMaxLcore ≤ r) ∧
    ∀ j, a ≤ j → j < r → ¬ Eligible rteMaxLcore cfg skipMaster j

/-- The search goes up to the first eligible lcore, or to the end. -/
theorem rteGetNextLcore_up (rteMaxLcore : UInt32) (cfg : RteConfig) (skipMaster : ℤ)
    (i : UInt32) : ∃ r, IsFirst rteMaxLcore cfg skipMaster (i + 1) r ∧
      ∀ fuel, rteMaxLcore.toNat < fuel →
        rteGetNextLcore rteMaxLcore cfg fuel i skipMaster 0 = some r := by
  set start := (i + 1).toNat with start_eq
  have limit := rteMaxLcore.toNat_lt
  have small : start < 2 ^ 32 := (i + 1).toNat_lt
  have ends : ∃ k, Eligible rteMaxLcore cfg skipMaster (.ofNat (start + k)) ∨
      rteMaxLcore.toNat ≤ start + k := ⟨rteMaxLcore.toNat, Or.inr (Nat.le_add_left ..)⟩
  -- the search ends `n` indices after its start, and at none before
  obtain ⟨n, stop, before⟩ := exists_first ends
  simp only [not_or, not_le] at before
  -- the index before the last one is below the limit, unless the search ends at once
  have reach : n = 0 ∨ start + n ≤ rteMaxLcore.toNat := by
    cases n with
    | zero => exact Or.inl rfl
    | succ n => exact Or.inr (before n n.lt_succ_self).2
  have bound : start + n < 2 ^ 32 := by
    rcases reach with rfl | within
    · exact small
    · exact within.trans_lt limit
  have value (k : ℕ) (within : k ≤ n) : (UInt32.ofNat (start + k)).toNat = start + k := by
    rw [UInt32.toNat_ofNat', Nat.mod_eq_of_lt (by omega)]
  refine ⟨.ofNat (start + n), ⟨?_, ?_, ?_⟩, ?_⟩
  · rw [UInt32.le_iff_toNat_le, value n le_rfl]
    exact Nat.le_add_right ..
  · rw [UInt32.le_iff_toNat_le, value n le_rfl]
    exact stop
  · intro j above below
    rw [UInt32.le_iff_toNat_le] at above
    rw [UInt32.lt_iff_toNat_lt, value n le_rfl] at below
    have passed := (before (j.toNat - start) (by omega)).1
    rwa [Nat.add_sub_cancel' above, UInt32.ofNat_toNat] at passed
  · intro fuel enough
    have first : advance rteMaxLcore 0 i = UInt32.ofNat (start + 0) := by
      rw [advance_zero, start_eq, Nat.add_zero, UInt32.ofNat_toNat]
    rw [rteGetNextLcore, first]
    have short : n ≤ rteMaxLcore.toNat := by
      rcases reach with rfl | within
      · exact Nat.zero_le _
      · exact (Nat.le_add_left n start).trans within
    refine iterate_of_path (fun k => UInt32.ofNat (start + k)) (short.trans_lt enough) ?_ ?_
    · intro k earlier
      have below : UInt32.ofNat (start + k) < rteMaxLcore := by
        rw [UInt32.lt_iff_toNat_lt, value k (Nat.le_of_lt earlier)]
        exact (before k earlier).2
      rw [nextLcorePass_of_not_eligible below (before k earlier).1, advance_zero, ← Nat.add_assoc,
        UInt32.ofNat_add (start + k)]
      rfl
    · rcases stop with eligible | beyond
      · exact nextLcorePass_of_eligible eligible
      · refine nextLcorePass_of_ge ?_
        rwa [UInt32.le_iff_toNat_le, value n le_rfl]

/-! ### With wrapping -/

/-- The lcore `d` places after the start of the search, counted cyclically. -/
def around (rteMaxLcore i : UInt32) (d : ℕ) : UInt32 :=
  .ofNat ((((i + 1) % rteMaxLcore).toNat + d) % rteMaxLcore.toNat)

section Around

variable {d : ℕ}

theorem toNat_around (positive : 0 < rteMaxLcore.toNat) :
    (around rteMaxLcore i d).toNat =
      (((i + 1) % rteMaxLcore).toNat + d) % rteMaxLcore.toNat := by
  have inside := Nat.mod_lt (((i + 1) % rteMaxLcore).toNat + d) positive
  have limit := rteMaxLcore.toNat_lt
  rw [around, UInt32.toNat_ofNat', Nat.mod_eq_of_lt (by omega)]

theorem around_lt (positive : 0 < rteMaxLcore.toNat) : around rteMaxLcore i d < rteMaxLcore := by
  rw [UInt32.lt_iff_toNat_lt, toNat_around positive]
  exact Nat.mod_lt _ positive

theorem advance_around (positive : 0 < rteMaxLcore.toNat) :
    advance rteMaxLcore 1 (around rteMaxLcore i d) = around rteMaxLcore i (d + 1) := by
  have inside := Nat.mod_lt (((i + 1) % rteMaxLcore).toNat + d) positive
  have limit := rteMaxLcore.toNat_lt
  rw [advance_one, ← UInt32.toNat_inj, UInt32.toNat_mod, UInt32.toNat_add, toNat_around positive,
    toNat_around positive, UInt32.toNat_one, Nat.mod_eq_of_lt (b := 2 ^ 32) (by omega),
    Nat.mod_add_mod, Nat.add_assoc]

/-- Going around from the start comes by every lcore. -/
theorem exists_around (inside : j < rteMaxLcore) :
    ∃ d < rteMaxLcore.toNat, around rteMaxLcore i d = j := by
  have below := UInt32.lt_iff_toNat_lt.mp inside
  have positive := Nat.zero_lt_of_lt below
  set start := ((i + 1) % rteMaxLcore).toNat with start_eq
  have first : start < rteMaxLcore.toNat := by
    rw [start_eq, UInt32.toNat_mod]
    exact Nat.mod_lt _ positive
  -- the place of `j` is its cyclic distance from the start
  refine ⟨(j.toNat + rteMaxLcore.toNat - start) % rteMaxLcore.toNat, Nat.mod_lt _ positive, ?_⟩
  rw [← UInt32.toNat_inj, toNat_around positive, ← start_eq, Nat.add_mod_mod,
    Nat.add_sub_cancel' (by omega), Nat.add_mod_right, Nat.mod_eq_of_lt below]

/-- The wrapping search goes around to the first eligible lcore, if there is any. -/
theorem rteGetNextLcore_around (some' : ∃ j, Eligible rteMaxLcore cfg skipMaster j) :
    ∃ d < rteMaxLcore.toNat, Eligible rteMaxLcore cfg skipMaster (around rteMaxLcore i d) ∧
      (∀ e < d, ¬ Eligible rteMaxLcore cfg skipMaster (around rteMaxLcore i e)) ∧
      ∀ fuel, d < fuel →
        rteGetNextLcore rteMaxLcore cfg fuel i skipMaster 1 = some (around rteMaxLcore i d) := by
  obtain ⟨j, eligible⟩ := some'
  obtain ⟨place, inside, there⟩ := exists_around (i := i) eligible.lt
  have positive := Nat.zero_lt_of_lt inside
  obtain ⟨d, found, before⟩ := exists_first
    (P := fun d => Eligible rteMaxLcore cfg skipMaster (around rteMaxLcore i d))
    ⟨place, there ▸ eligible⟩
  -- the known eligible lcore bounds the distance to the first one
  have earliest : d ≤ place := by
    by_contra later
    exact before place (Nat.not_le.mp later) (there ▸ eligible)
  refine ⟨d, Nat.lt_of_le_of_lt earliest inside, found, before, ?_⟩
  intro fuel enough
  have first : advance rteMaxLcore 1 i = around rteMaxLcore i 0 := by
    rw [advance_one, ← UInt32.toNat_inj, toNat_around positive, Nat.add_zero, UInt32.toNat_mod,
      Nat.mod_mod]
  rw [rteGetNextLcore, first]
  refine iterate_of_path _ enough ?_ (nextLcorePass_of_eligible found)
  intro k earlier
  rw [nextLcorePass_of_not_eligible (around_lt positive) (before k earlier),
    advance_around positive]

end Around

/-- **`rte_get_next_lcore` ends at the right lcore**, whatever index it starts from.
Without wrapping that is the least eligible one from the next index on, or there is
none and the result is past the limit. With wrapping, and some lcore eligible, it
takes no more passes than there are lcores to the first eligible one going around,
which is the starting one if no other is eligible. -/
theorem rteGetNextLcore_finds (rteMaxLcore : UInt32) (cfg : RteConfig) (skipMaster : ℤ)
    (i : UInt32) :
    (∃ r, (∀ fuel, rteMaxLcore.toNat < fuel →
        rteGetNextLcore rteMaxLcore cfg fuel i skipMaster 0 = some r) ∧
      ((Eligible rteMaxLcore cfg skipMaster r ∧ i + 1 ≤ r ∧
          ∀ j, i + 1 ≤ j → Eligible rteMaxLcore cfg skipMaster j → r ≤ j) ∨
        (rteMaxLcore ≤ r ∧ ∀ j, i + 1 ≤ j → ¬ Eligible rteMaxLcore cfg skipMaster j))) ∧
    ((∃ j, Eligible rteMaxLcore cfg skipMaster j) → ∃ d < rteMaxLcore.toNat,
      (∀ fuel, d < fuel →
        rteGetNextLcore rteMaxLcore cfg fuel i skipMaster 1 = some (around rteMaxLcore i d)) ∧
      Eligible rteMaxLcore cfg skipMaster (around rteMaxLcore i d) ∧
      (∀ e < d, ¬ Eligible rteMaxLcore cfg skipMaster (around rteMaxLcore i e)) ∧
      ((∀ j, Eligible rteMaxLcore cfg skipMaster j ↔ j = i) → around rteMaxLcore i d = i)) := by
  constructor
  · obtain ⟨r, ⟨above, stop, before⟩, returns⟩ := rteGetNextLcore_up rteMaxLcore cfg skipMaster i
    refine ⟨r, returns, ?_⟩
    rcases stop with eligible | beyond
    · refine Or.inl ⟨eligible, above, ?_⟩
      intro j later other
      by_contra earlier
      exact before j later (UInt32.not_le.mp earlier) other
    · refine Or.inr ⟨beyond, ?_⟩
      intro j later other
      exact before j later (UInt32.lt_of_lt_of_le other.lt beyond) other
  · intro eligible
    obtain ⟨d, inside, found, before, returns⟩ := rteGetNextLcore_around (i := i) eligible
    exact ⟨d, inside, returns, found, before, fun only => (only _).mp found⟩

end DpdkCr
