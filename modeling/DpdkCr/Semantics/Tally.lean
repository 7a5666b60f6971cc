import Mathlib.Algebra.BigOperators.Fin
import Mathlib.Algebra.Order.BigOperators.Group.Finset

/-!
# Tallies over parties

What finitely many parties hold together, each according to its own state. A party
that changes its state changes the tally by what it holds before and afterwards.

## Main definitions

* `tally` — the sum of what the parties hold

## Main results

* `tally_update` — one party changes
* `add_le_tally` — what two parties hold is part of the whole
-/

namespace Semantics

variable {ι α : Type*} [Fintype ι] {holds : α → ℕ} {state : ι → α} {i j : ι}

/-- What all parties hold. -/
def tally (holds : α → ℕ) (state : ι → α) : ℕ := ∑ i, holds (state i)

theorem tally_update [DecidableEq ι] (holds : α → ℕ) (state : ι → α) (i : ι) (a : α) :
    tally holds (Function.update state i a) + holds (state i) = tally holds state + holds a := by
  have others : ∑ j ∈ Finset.univ.erase i, holds (Function.update state i a j) =
      ∑ j ∈ Finset.univ.erase i, holds (state j) :=
    Finset.sum_congr rfl fun j kept => by rw [Function.update_of_ne (Finset.ne_of_mem_erase kept)]
  rw [tally, tally, ← Finset.add_sum_erase _ _ (Finset.mem_univ i), Function.update_self,
    ← Finset.add_sum_erase _ (fun j => holds (state j)) (Finset.mem_univ i), others]
  omega

theorem le_tally : holds (state i) ≤ tally holds state :=
  Finset.single_le_sum (fun j _ => Nat.zero_le (holds (state j))) (Finset.mem_univ i)

theorem add_le_tally (other : i ≠ j) : holds (state i) + holds (state j) ≤ tally holds state := by
  classical
  rw [tally, ← Finset.add_sum_erase _ _ (Finset.mem_univ i)]
  refine Nat.add_le_add_left ?_ _
  exact Finset.single_le_sum (f := fun j => holds (state j)) (fun _ _ => Nat.zero_le _)
    (Finset.mem_erase.mpr ⟨other.symm, Finset.mem_univ j⟩)

theorem tally_eq_zero_iff : tally holds state = 0 ↔ ∀ i, holds (state i) = 0 := by
  rw [tally, Finset.sum_eq_zero_iff]
  exact forall_congr' fun i => imp_iff_right (Finset.mem_univ i)

end Semantics
