import DpdkCr.Math.Circular
import DpdkCr.Math.LittleEndian

/-!
# Copies that grow from the front

A copy between two ranges that do not meet, done in blocks. Once the first `k` bytes
are there, a block that starts at or before `k` and ends at or behind it takes the copy
further, whether or not it repeats bytes: what it reads is still the source.

## Main definitions

* `Memory.copy` — copy a run of bytes inside one memory
* `Memory.Apart` — two ranges that do not meet

## Main results

* `writeBytes_bytes`, `store_load` — a vector and a word that are loaded and stored
* `copy_copy` — a block that takes a copy further
-/

namespace Memory

open Circular

variable {m : Memory} {dst src lo k n w : ℕ}

/-- Copy `n` bytes from `src` on to `dst`. -/
def copy (m : Memory) (dst src n : ℕ) : Memory := block m m dst src n

/-- The `n` bytes from `dst` on and those from `src` on do not meet. -/
def Apart (dst src n : ℕ) : Prop := dst + n ≤ src ∨ src + n ≤ dst

instance : Decidable (Apart dst src n) := inferInstanceAs (Decidable (_ ∨ _))

@[simp] theorem copy_zero : m.copy dst src 0 = m := block_zero

theorem getElem?_bytes {i : ℕ} (inside : i < n) : (m.bytes src n)[i]? = some (m (src + i)) := by
  induction n generalizing src i with
  | zero => exact absurd inside i.not_lt_zero
  | succ n ih =>
      cases i with
      | zero => rfl
      | succ i =>
          rw [bytes, List.getElem?_cons_succ, ih (Nat.lt_of_succ_lt_succ inside), Nat.add_assoc,
            Nat.add_comm 1]

/-- What is copied can be read where it was copied to. -/
theorem bytes_copy : (m.copy dst src n).bytes dst n = m.bytes src n :=
  bytes_congr fun _ inside => block_inside inside

/-- A vector that is loaded from another memory and stored. -/
theorem writeBytes_bytes_eq_block {from' : Memory} :
    m.writeBytes dst (from'.bytes src n) = block m from' dst src n := by
  funext a
  by_cases inside : dst ≤ a ∧ a < dst + n
  · obtain ⟨i, rfl⟩ := Nat.exists_eq_add_of_le inside.1
    have short : i < n := Nat.add_lt_add_iff_left.mp inside.2
    rw [block_inside short, writeBytes, if_pos inside.1, Nat.add_sub_cancel_left,
      getElem?_bytes short, Option.getD_some]
  · rw [block_outside (by omega), writeBytes_outside (by rw [length_bytes]; omega)]

theorem writeBytes_bytes : m.writeBytes dst (m.bytes src n) = m.copy dst src n :=
  writeBytes_bytes_eq_block

/-- A word that is loaded and stored. -/
theorem store_load : m.store dst n (m.load src n) = m.copy dst src n := by
  funext a
  rw [copy]
  by_cases inside : dst ≤ a ∧ a < dst + n
  · obtain ⟨i, rfl⟩ := Nat.exists_eq_add_of_le inside.1
    have short : i < n := Nat.add_lt_add_iff_left.mp inside.2
    rw [block_inside short, store_load_inside short]
  · rw [block_outside (by omega), store_outside (by omega)]

/-- **A block takes a copy further.** It may repeat bytes that are there already. -/
theorem copy_copy (apart : Apart dst src n) (reaches : lo ≤ k) (further : k ≤ lo + w)
    (fits : lo + w ≤ n) :
    (m.copy dst src k).copy (dst + lo) (src + lo) w = m.copy dst src (lo + w) := by
  have unread {i : ℕ} (inside : i < n) : m.copy dst src k (src + i) = m (src + i) := by
    refine block_outside ?_
    rcases apart with before | behind
    · exact .inr (by omega)
    · exact .inl (by omega)
  funext a
  by_cases inside : dst ≤ a ∧ a < dst + (lo + w)
  · obtain ⟨i, rfl⟩ := Nat.exists_eq_add_of_le inside.1
    have short : i < lo + w := Nat.add_lt_add_iff_left.mp inside.2
    conv_rhs => rw [copy, block_inside short]
    by_cases late : lo ≤ i
    · obtain ⟨j, rfl⟩ := Nat.exists_eq_add_of_le late
      rw [copy, ← Nat.add_assoc, block_inside (by omega), Nat.add_assoc, unread (by omega)]
    · rw [copy, block_outside (by omega), copy, block_inside (by omega)]
  · rw [copy, block_outside (by omega), copy, block_outside (by omega), copy,
      block_outside (by omega)]

/-- A block that begins where the copy has come to. -/
theorem copy_copy_next (apart : Apart dst src n) (fits : k + w ≤ n) :
    (m.copy dst src k).copy (dst + k) (src + k) w = m.copy dst src (k + w) :=
  copy_copy apart le_rfl (Nat.le_add_right k w) fits

end Memory
