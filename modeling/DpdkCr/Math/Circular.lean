import Mathlib.Algebra.Order.Ring.Nat
import Mathlib.Data.Nat.ModEq

/-!
# Cells visited cyclically

Position `p` of an unbounded sequence lives in cell `p % size`. Any `size`
consecutive positions live in different cells, so writing at the end of a
window that fits keeps what the rest of the window holds. A write or a read of
consecutive positions that reaches the last cell continues at cell zero, and is
then two block copies.

## Main definitions

* `Circular.block` — copy a run of cells between two arrays
* `Circular.Write` — what a cyclic write changes and what it keeps

## Main results

* `Write.of_fits`, `Write.of_wraps` — one or two block copies make a cyclic write
* `read_of_fits`, `read_of_wraps` — one or two block copies make a cyclic read
* `Write.keeps` — a write keeps the positions of a window it does not overfill
-/

namespace Circular

variable {α : Type*} {before after cells dst src : ℕ → α}
variable {size start d s i j m n p lo : ℕ}

/-- Copy `n` cells of `src` from `s` on to `dst` from `d` on. -/
def block (dst src : ℕ → α) (d s n : ℕ) : ℕ → α := fun j =>
  if d ≤ j ∧ j < d + n then src (s + (j - d)) else dst j

theorem block_inside (inside : i < n) : block dst src d s n (d + i) = src (s + i) := by
  unfold block
  rw [if_pos (by omega), Nat.add_sub_cancel_left]

theorem block_outside (outside : j < d ∨ d + n ≤ j) : block dst src d s n j = dst j := by
  unfold block
  rw [if_neg (by omega)]

@[simp] theorem block_zero : block dst src d s 0 = dst :=
  funext fun _ => block_outside (by omega)

/-- Adjacent blocks are one block. -/
theorem block_block :
    block (block dst src d s m) src (d + m) (s + m) n = block dst src d s (m + n) := by
  funext j
  unfold block
  by_cases second : d + m ≤ j ∧ j < d + m + n
  · rw [if_pos second, if_pos (by omega)]
    congr 1
    omega
  · rw [if_neg second]
    by_cases first : d ≤ j ∧ j < d + m
    · rw [if_pos first, if_pos (by omega)]
    · rw [if_neg first, if_neg (by omega)]

/-- Different positions of a window as long as the cells live in different cells. -/
theorem cell_ne (first : lo ≤ p) (order : p < i) (last : i < lo + size) :
    p % size ≠ i % size := by
  intro same
  have divides : size ∣ i - p := (Nat.modEq_iff_dvd' order.le).mp same
  have := Nat.le_of_dvd (by omega) divides
  omega

/-- `after` holds `xs` at `n` positions from `start` on, and is `before` elsewhere. -/
structure Write (before after : ℕ → α) (size start n : ℕ) (xs : ℕ → α) : Prop where
  written : ∀ i < n, after ((start + i) % size) = xs i
  kept : ∀ j, (∀ i < n, (start + i) % size ≠ j) → after j = before j

/-- A write keeps every earlier position of a window that still fits after it. -/
theorem Write.keeps {xs : ℕ → α} (write : Write before after size start n xs) (first : lo ≤ p)
    (earlier : p < start) (fits : start + n ≤ lo + size) :
    after (p % size) = before (p % size) :=
  write.kept _ fun _ bound => (cell_ne first (by omega) (by omega)).symm

private theorem cell_of_fits (fits : start % size + i < size) :
    (start + i) % size = start % size + i := by
  rw [← Nat.mod_add_mod, Nat.mod_eq_of_lt fits]

private theorem cell_of_wraps (short : i < size) (wraps : size ≤ start % size + i) :
    (start + i) % size = start % size + i - size := by
  have bound := Nat.mod_lt start (by omega : 0 < size)
  rw [← Nat.mod_add_mod, Nat.mod_eq_sub_mod wraps, Nat.mod_eq_of_lt (by omega)]

/-- A write that stays within the array is one block copy. -/
theorem Write.of_fits (fits : start % size + n ≤ size) :
    Write cells (block cells src (start % size) 0 n) size start n src where
  written i bound := by
    rw [cell_of_fits (by omega), block_inside bound, Nat.zero_add]
  kept j absent := by
    refine block_outside ?_
    by_contra inside
    have cell : (start + (j - start % size)) % size = start % size + (j - start % size) :=
      cell_of_fits (by omega)
    exact absent (j - start % size) (by omega) (by omega)

/-- A write that reaches the end of the array is two block copies. -/
theorem Write.of_wraps (short : n ≤ size) (wraps : size ≤ start % size + n) (positive : 0 < size) :
    Write cells
      (block (block cells src (start % size) 0 (size - start % size)) src 0 (size - start % size)
        (n - (size - start % size)))
      size start n src := by
  have bound := Nat.mod_lt start positive
  constructor
  · intro i inside
    by_cases low : start % size + i < size
    · rw [cell_of_fits low, block_outside (by omega), block_inside (by omega), Nat.zero_add]
    · have cell : (start + i) % size = start % size + i - size :=
        cell_of_wraps (by omega) (Nat.not_lt.mp low)
      -- position `i` of the source is in the second block
      have split : i = size - start % size + (start % size + i - size) := by omega
      rw [cell]
      conv_rhs => rw [split]
      conv_lhs => rw [← Nat.zero_add (start % size + i - size)]
      exact block_inside (by omega)
  · intro j absent
    have low (inside : j < size) : start % size ≤ j → start % size + n ≤ j := by
      intro above
      by_contra short'
      have cell : (start + (j - start % size)) % size = start % size + (j - start % size) :=
        cell_of_fits (by omega)
      exact absent (j - start % size) (by omega) (by omega)
    -- a cell of the second block is position `j + size - start % size` of the write
    have high : ¬ j < n - (size - start % size) := by
      intro inside
      have cell : (start + (j + size - start % size)) % size =
          start % size + (j + size - start % size) - size := cell_of_wraps (by omega) (by omega)
      exact absent (j + size - start % size) (by omega) (by omega)
    rw [block_outside (by omega), block_outside]
    by_contra inside
    have := low (by omega) (by omega)
    omega

/-- A read that stays within the array is one block copy. -/
theorem read_of_fits (fits : start % size + n ≤ size) (inside : i < n) :
    block dst cells 0 (start % size) n i = cells ((start + i) % size) := by
  rw [cell_of_fits (by omega), ← Nat.zero_add i, block_inside inside, Nat.zero_add]

/-- A read that reaches the end of the array is two block copies. -/
theorem read_of_wraps (short : n ≤ size) (positive : 0 < size) (inside : i < n) :
    block (block dst cells 0 (start % size) (size - start % size)) cells (size - start % size) 0
      (n - (size - start % size)) i = cells ((start + i) % size) := by
  have bound := Nat.mod_lt start positive
  by_cases low : start % size + i < size
  · rw [cell_of_fits low, block_outside (by omega), ← Nat.zero_add i, block_inside (by omega),
      Nat.zero_add]
  · have cell : (start + i) % size = start % size + i - size :=
        cell_of_wraps (by omega) (Nat.not_lt.mp low)
    have split : i = size - start % size + (start % size + i - size) := by omega
    rw [cell]
    conv_lhs => rw [split]
    rw [block_inside (by omega), Nat.zero_add]

end Circular
