import DpdkCr.Math.Circular

/-!
# Rings and their slot copies

`struct rte_ring` as far as its index arithmetic uses it, and the two macros
that copy object pointers between a table and the slots. The slots follow the
structure in memory (`&r[1]`), so they are an array of their own here.

The four indexes run over all 32-bit values and are masked at each access. The
copies are unrolled by four when they stay clear of the end of the array, and
are two plain loops otherwise; both are cyclic copies.

## Main results

* `enqueuePtrs_write` — `ENQUEUE_PTRS` is a cyclic write of the table
* `dequeuePtrs_apply` — `DEQUEUE_PTRS` is a cyclic read into the table
-/

namespace DpdkCr

/-- `struct rte_ring_headtail`. -/
structure RteRingHeadtail where
  head : UInt32
  tail : UInt32
  single : UInt32
  deriving DecidableEq, Repr

/-- `struct rte_ring`. -/
structure RteRing where
  size : UInt32
  mask : UInt32
  capacity : UInt32
  prod : RteRingHeadtail
  cons : RteRingHeadtail
  deriving DecidableEq, Repr

namespace RteRing

/-- What `rte_ring_init` establishes about the three sizes. -/
structure Shaped (r : RteRing) : Prop where
  size_eq : ∃ order, r.size.toNat = 2 ^ order
  mask_eq : r.mask = r.size - 1
  capacity_le : r.capacity ≤ r.mask

namespace Shaped

variable {r : RteRing} (shaped : r.Shaped)
include shaped

theorem exists_order : ∃ order < 32, r.size.toNat = 2 ^ order := by
  obtain ⟨order, size_eq⟩ := shaped.size_eq
  exact ⟨order, (Nat.pow_lt_pow_iff_right Nat.one_lt_two).mp (size_eq ▸ r.size.toNat_lt), size_eq⟩

theorem size_pos : 0 < r.size.toNat := by
  obtain ⟨order, size_eq⟩ := shaped.size_eq
  rw [size_eq]
  exact Nat.two_pow_pos order

theorem size_le : r.size.toNat ≤ 2 ^ 31 := by
  obtain ⟨order, bound, size_eq⟩ := shaped.exists_order
  rw [size_eq]
  exact Nat.pow_le_pow_right Nat.two_pos (by omega)

theorem toNat_mask : r.mask.toNat = r.size.toNat - 1 := by
  have positive : 1 ≤ r.size := UInt32.le_iff_toNat_le.mpr shaped.size_pos
  rw [shaped.mask_eq, UInt32.toNat_sub_of_le _ _ positive]
  rfl

theorem capacity_lt : r.capacity.toNat < r.size.toNat := by
  have fits := UInt32.le_iff_toNat_le.mp shaped.capacity_le
  have positive := shaped.size_pos
  rw [shaped.toNat_mask] at fits
  omega

/-- The slot of a position does not depend on where the 32-bit index wraps. -/
theorem toNat_ofNat_and_mask (p : ℕ) : (UInt32.ofNat p &&& r.mask).toNat = p % r.size.toNat := by
  obtain ⟨order, bound, size_eq⟩ := shaped.exists_order
  -- the size divides `2 ^ 32`, so wrapping first does not change the cell
  rw [UInt32.toNat_and, shaped.toNat_mask, size_eq, Nat.and_two_pow_sub_one_eq_mod,
    UInt32.toNat_ofNat', Nat.mod_mod_of_dvd _ (Nat.pow_dvd_pow 2 bound.le)]

end Shaped

end RteRing

section Copies

variable {α : Type*}

/-- One plain copy loop: both indexes advance by one, `count` times. -/
def copyEach (dst src : ℕ → α) (d s : ℕ) : ℕ → ℕ → α
  | 0 => dst
  | count + 1 => copyEach (Function.update dst d (src s)) src (d + 1) (s + 1) count

/-- The unrolled loop: four assignments in each of `count` iterations. -/
def copyQuads (dst src : ℕ → α) (d s : ℕ) : ℕ → ℕ → α
  | 0 => dst
  | count + 1 =>
    let dst := Function.update dst d (src s)
    let dst := Function.update dst (d + 1) (src (s + 1))
    let dst := Function.update dst (d + 2) (src (s + 2))
    let dst := Function.update dst (d + 3) (src (s + 3))
    copyQuads dst src (d + 4) (s + 4) count

/-- The first branch of the copy macros. Its loop counts by four up to a multiple
of four, and each case of the switch on the rest falls through to the next. -/
def copyUnrolled (dst src : ℕ → α) (d s : ℕ) (n : UInt32) : ℕ → α :=
  let quads := (n &&& ~~~3).toNat / 4
  copyEach (copyQuads dst src d s quads) src (d + 4 * quads) (s + 4 * quads) (n &&& 3).toNat

/-- `ENQUEUE_PTRS`: the slots after storing `n` objects from `prodHead` on. -/
def enqueuePtrs (r : RteRing) (ring : ℕ → α) (prodHead : UInt32) (objTable : ℕ → α)
    (n : UInt32) : ℕ → α :=
  let size := r.size
  let idx := prodHead &&& r.mask
  if idx + n < size then copyUnrolled ring objTable idx.toNat 0 n
  else
    let i := size.toNat - idx.toNat
    let ring := copyEach ring objTable idx.toNat 0 i
    copyEach ring objTable 0 i (n.toNat - i)

/-- `DEQUEUE_PTRS`: the table after loading `n` objects from `consHead` on. -/
def dequeuePtrs (r : RteRing) (ring : ℕ → α) (consHead : UInt32) (objTable : ℕ → α)
    (n : UInt32) : ℕ → α :=
  let idx := consHead &&& r.mask
  let size := r.size
  if idx + n < size then copyUnrolled objTable ring 0 idx.toNat n
  else
    let i := size.toNat - idx.toNat
    let objTable := copyEach objTable ring 0 idx.toNat i
    copyEach objTable ring i 0 (n.toNat - i)

open Circular

variable {dst src ring objTable : ℕ → α} {d s count : ℕ} {n : UInt32}

private theorem update_eq_block : Function.update dst d (src s) = block dst src d s 1 := by
  funext j
  by_cases same : j = d
  · rw [same, Function.update_self]
    exact (block_inside (i := 0) Nat.one_pos).symm
  · rw [Function.update_of_ne same, block_outside (by omega)]

theorem copyEach_eq_block : copyEach dst src d s count = block dst src d s count := by
  induction count generalizing dst d s with
  | zero => rw [copyEach, block_zero]
  | succ count ih => rw [copyEach, ih, update_eq_block, block_block, Nat.add_comm 1]

theorem copyQuads_eq_block : copyQuads dst src d s count = block dst src d s (4 * count) := by
  induction count generalizing dst d s with
  | zero => rw [copyQuads, block_zero]
  | succ count ih =>
      rw [copyQuads, ih, update_eq_block, update_eq_block, update_eq_block, update_eq_block,
        block_block, block_block, block_block, block_block]
      congr 1
      omega

/-- The bits outside a mask and the bits inside it make the whole number. -/
private theorem toNat_and_not_add (m : UInt32) :
    (n &&& ~~~m).toNat + (n &&& m).toNat = n.toNat := by
  have apart : (n &&& ~~~m).toBitVec &&& (n &&& m).toBitVec = 0 := by
    ext i bound
    simp only [UInt32.toBitVec_and, UInt32.toBitVec_not, BitVec.getElem_and, BitVec.getElem_not]
    grind
  have whole : (n &&& ~~~m).toBitVec + (n &&& m).toBitVec = n.toBitVec := by
    rw [BitVec.add_eq_or_of_and_eq_zero _ _ apart]
    ext i bound
    simp only [UInt32.toBitVec_and, UInt32.toBitVec_not, BitVec.getElem_and, BitVec.getElem_not,
      BitVec.getElem_or]
    grind
  have sum := BitVec.toNat_add_of_and_eq_zero apart
  rw [whole] at sum
  exact sum.symm

/-- Rounding down to a multiple of four and the rest make the whole count. -/
private theorem quads_add_rest : 4 * ((n &&& ~~~3).toNat / 4) + (n &&& 3).toNat = n.toNat := by
  have rest : (n &&& 3).toNat = n.toNat % 4 := by
    rw [UInt32.toNat_and]
    exact Nat.and_two_pow_sub_one_eq_mod n.toNat 2
  have := toNat_and_not_add (n := n) 3
  omega

theorem copyUnrolled_eq_block : copyUnrolled dst src d s n = block dst src d s n.toNat := by
  rw [copyUnrolled, copyEach_eq_block, copyQuads_eq_block, block_block, quads_add_rest]

variable {r : RteRing} {p : ℕ}

/-- The test of both macros decides whether the copy stays clear of the end. -/
private theorem fast_iff (shaped : r.Shaped) (fits : n ≤ r.capacity) :
    (UInt32.ofNat p &&& r.mask) + n < r.size ↔
      p % r.size.toNat + n.toNat < r.size.toNat := by
  have low := Nat.mod_lt p shaped.size_pos
  have short := UInt32.le_iff_toNat_le.mp fits
  have room := shaped.capacity_lt
  have half := shaped.size_le
  -- an index below the size and a count below it do not wrap: the size is at most `2 ^ 31`
  rw [UInt32.lt_iff_toNat_lt, UInt32.toNat_add, shaped.toNat_ofNat_and_mask,
    Nat.mod_eq_of_lt (by omega)]

/-- `ENQUEUE_PTRS` writes the table cyclically from the producer's position on. -/
theorem enqueuePtrs_write (shaped : r.Shaped) (fits : n ≤ r.capacity) :
    Write ring (enqueuePtrs r ring (.ofNat p) objTable n) r.size.toNat p n.toNat objTable := by
  have short := UInt32.le_iff_toNat_le.mp fits
  have room := shaped.capacity_lt
  rw [enqueuePtrs]
  by_cases fast : (UInt32.ofNat p &&& r.mask) + n < r.size
  · rw [if_pos fast, copyUnrolled_eq_block, shaped.toNat_ofNat_and_mask]
    exact Write.of_fits ((fast_iff shaped fits).mp fast).le
  · rw [if_neg fast, copyEach_eq_block, copyEach_eq_block, shaped.toNat_ofNat_and_mask]
    have wraps := (fast_iff shaped fits).not.mp fast
    exact Write.of_wraps (by omega) (by omega) shaped.size_pos

/-- `DEQUEUE_PTRS` reads the slots cyclically from the consumer's position on. -/
theorem dequeuePtrs_apply (shaped : r.Shaped) (fits : n ≤ r.capacity) {i : ℕ}
    (inside : i < n.toNat) :
    dequeuePtrs r ring (.ofNat p) objTable n i = ring ((p + i) % r.size.toNat) := by
  have short := UInt32.le_iff_toNat_le.mp fits
  have room := shaped.capacity_lt
  rw [dequeuePtrs]
  by_cases fast : (UInt32.ofNat p &&& r.mask) + n < r.size
  · rw [if_pos fast, copyUnrolled_eq_block, shaped.toNat_ofNat_and_mask]
    exact read_of_fits ((fast_iff shaped fits).mp fast).le inside
  · rw [if_neg fast, copyEach_eq_block, copyEach_eq_block, shaped.toNat_ofNat_and_mask]
    exact read_of_wraps (by omega) shaped.size_pos inside

end Copies

end DpdkCr
