import Mathlib.Data.Nat.ModEq
import Mathlib.Algebra.Order.BigOperators.Group.List
import Mathlib.Tactic.Ring

/-!
# One's-complement sums

Addition of `w`-bit words with end-around carry. A total of any size folds to
one `w`-bit word: its residue modulo `2 ^ w - 1`, where the zero class is
represented by `2 ^ w - 1` unless the total itself is zero. Folding is
insensitive to the order of the summands, to folding a part first, and to
folding first at a multiple of the width, so a sum may be accumulated in wide
words and narrowed at the end.

## Main definitions

* `OnesComplement.fold` — the word a total folds to
* `OnesComplement.add` — one addition with end-around carry

## Main results

* `fold_eq_iff` — two totals fold alike iff they are congruent and vanish together
* `add_eq_fold` — an end-around-carry addition is the fold of the plain sum
* `fold_fold_of_dvd` — folding to a multiple of `v` bits first does not change the fold to `v` bits
* `fold_add_complement` — a total and the complement of its fold make all ones
-/

namespace OnesComplement

/-- The `w`-bit word a total folds to under end-around carry. -/
def fold (w n : ℕ) : ℕ := if n = 0 then 0 else (n - 1) % (2 ^ w - 1) + 1

/-- Addition of two `w`-bit words with end-around carry. -/
def add (w a b : ℕ) : ℕ := if a + b < 2 ^ w then a + b else a + b - 2 ^ w + 1

variable {w v a b n : ℕ}

private theorem one_le_pred (positive : 0 < w) : 1 ≤ 2 ^ w - 1 := by
  have := Nat.pow_le_pow_right (show 0 < 2 by decide) positive
  omega

@[simp] theorem fold_zero : fold w 0 = 0 := rfl

@[simp] theorem fold_eq_zero_iff : fold w n = 0 ↔ n = 0 := by
  unfold fold
  split <;> simp_all

theorem fold_lt (positive : 0 < w) : fold w n < 2 ^ w := by
  have modulus := one_le_pred positive
  unfold fold
  split
  · omega
  · have := Nat.mod_lt (n - 1) modulus
    omega

/-- A total that fits the width is its own fold. -/
theorem fold_of_lt (small : n < 2 ^ w) : fold w n = n := by
  unfold fold
  split
  · omega
  · rw [Nat.mod_eq_of_lt (by omega)]
    omega

theorem fold_modEq : fold w n ≡ n [MOD 2 ^ w - 1] := by
  unfold fold
  split_ifs with zero
  · rw [zero]
  · have step := (Nat.mod_modEq (n - 1) (2 ^ w - 1)).add_right 1
    rwa [Nat.sub_add_cancel (Nat.one_le_iff_ne_zero.mpr zero)] at step

/-- Two totals fold alike exactly when they are congruent and vanish together. -/
theorem fold_eq_iff : fold w a = fold w b ↔ (a = 0 ↔ b = 0) ∧ a ≡ b [MOD 2 ^ w - 1] := by
  constructor
  · intro same
    refine ⟨?_, fold_modEq.symm.trans (same ▸ fold_modEq)⟩
    rw [← fold_eq_zero_iff (w := w), same, fold_eq_zero_iff]
  · rintro ⟨zero, congruent⟩
    by_cases vanishes : a = 0
    · rw [vanishes, zero.mp vanishes]
    -- both are nonzero, so their predecessors have the same residue
    · have other : b ≠ 0 := fun absent => vanishes (zero.mpr absent)
      unfold fold
      rw [if_neg vanishes, if_neg other]
      congr 1
      apply Nat.ModEq.add_right_cancel' 1
      rwa [Nat.sub_add_cancel (Nat.one_le_iff_ne_zero.mpr vanishes),
        Nat.sub_add_cancel (Nat.one_le_iff_ne_zero.mpr other)]

/-- A summand may be folded first. -/
@[simp] theorem fold_add_fold_left : fold w (fold w a + b) = fold w (a + b) := by
  refine fold_eq_iff.mpr ⟨?_, fold_modEq.add_right b⟩
  rw [Nat.add_eq_zero_iff, Nat.add_eq_zero_iff, fold_eq_zero_iff]

@[simp] theorem fold_add_fold_right : fold w (a + fold w b) = fold w (a + b) := by
  rw [Nat.add_comm, fold_add_fold_left, Nat.add_comm]

/-- An end-around-carry addition is the fold of the plain sum. -/
theorem add_eq_fold (left : a < 2 ^ w) (right : b < 2 ^ w) : add w a b = fold w (a + b) := by
  unfold add
  split_ifs with fits
  · exact (fold_of_lt fits).symm
  · rw [← fold_of_lt (w := w) (n := a + b - 2 ^ w + 1) (by omega)]
    -- taking `2 ^ w` off and adding the carry takes one modulus off
    refine fold_eq_iff.mpr ⟨by omega, ?_⟩
    have carry : a + b = a + b - 2 ^ w + 1 + (2 ^ w - 1) := by omega
    conv_rhs => rw [carry]
    exact (Nat.add_modEq_right).symm

theorem add_lt (left : a < 2 ^ w) (right : b < 2 ^ w) : add w a b < 2 ^ w := by
  unfold add
  split_ifs <;> omega

/-- Adding words one by one with end-around carry folds their total. -/
theorem foldl_add_eq_fold (words : List ℕ) (bounded : ∀ word ∈ words, word < 2 ^ w)
    (small : a < 2 ^ w) : words.foldl (add w) a = fold w (a + words.sum) := by
  induction words generalizing a with
  | nil => simpa using (fold_of_lt small).symm
  | cons word words ih =>
      have head := bounded word List.mem_cons_self
      rw [List.foldl_cons, ih (fun other member => bounded other (List.mem_cons_of_mem _ member))
        (add_lt small head), add_eq_fold small head, fold_add_fold_left, List.sum_cons,
        Nat.add_assoc]

theorem pow_modEq_one (factor : v ∣ n) : 2 ^ n ≡ 1 [MOD 2 ^ v - 1] := by
  obtain ⟨count, rfl⟩ := factor
  have base : 2 ^ v ≡ 1 [MOD 2 ^ v - 1] := by
    have one : 1 ≤ 2 ^ v := Nat.one_le_two_pow
    exact (Nat.modEq_iff_dvd' one).mpr dvd_rfl |>.symm
  simpa only [one_pow, ← pow_mul] using base.pow count

/-- A weight that is a power of the folding base may be dropped. -/
theorem fold_add_shift (factor : v ∣ n) : fold v (a + 2 ^ n * b) = fold v (a + b) := by
  refine fold_eq_iff.mpr ⟨?_, ?_⟩
  · simp [Nat.add_eq_zero_iff]
  · simpa only [one_mul] using ((pow_modEq_one factor).mul_right b).add_left a

/-- Folding to a multiple of the width first does not change the fold. -/
theorem fold_fold_of_dvd (factor : v ∣ w) : fold v (fold w n) = fold v n := by
  refine fold_eq_iff.mpr ⟨fold_eq_zero_iff, fold_modEq.of_dvd ?_⟩
  exact (Nat.modEq_iff_dvd' Nat.one_le_two_pow).mp (pow_modEq_one factor).symm

/-- A total and the complement of its fold make all ones. -/
theorem fold_add_complement (positive : 0 < w) :
    fold w (n + (2 ^ w - 1 - fold w n)) = 2 ^ w - 1 := by
  have bound := fold_lt (n := n) positive
  rw [← fold_add_fold_left, Nat.add_sub_cancel' (by omega), fold_of_lt (by omega)]

/-- A total folds to all ones exactly when it is a nonzero multiple of `2 ^ w - 1`. -/
theorem fold_eq_ones_iff (positive : 0 < w) :
    fold w n = 2 ^ w - 1 ↔ n ≠ 0 ∧ 2 ^ w - 1 ∣ n := by
  have modulus := one_le_pred positive
  constructor
  · intro ones
    refine ⟨?_, ?_⟩
    · rintro rfl
      rw [fold_zero] at ones
      omega
    · have congruent : fold w n ≡ n [MOD 2 ^ w - 1] := fold_modEq
      rw [ones] at congruent
      exact Nat.modEq_zero_iff_dvd.mp
        (congruent.symm.trans (Nat.modEq_zero_iff_dvd.mpr dvd_rfl))
  · rintro ⟨nonzero, divides⟩
    have self : fold w (2 ^ w - 1) = 2 ^ w - 1 := fold_of_lt (by omega)
    refine (fold_eq_iff.mpr ⟨by omega, ?_⟩).trans self
    exact (Nat.modEq_zero_iff_dvd.mpr divides).trans (Nat.modEq_zero_iff_dvd.mpr dvd_rfl).symm

end OnesComplement
