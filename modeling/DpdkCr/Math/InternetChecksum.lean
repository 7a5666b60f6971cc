import DpdkCr.Math.OnesComplement
import DpdkCr.Math.LittleEndian

/-!
# The Internet checksum

The reference meaning of a checksum over a byte string: pair the bytes into
little-endian 16-bit words, pad a last odd byte with zero, add the words with
end-around carry, and complement. On a byte range of memory the sum is the
16-bit fold of the number the whole range spells, so every way of cutting the
range into wider words gives the same sum.
-/

namespace InternetChecksum

open OnesComplement

/-- The little-endian 16-bit words of a byte string, a last odd byte zero-padded. -/
def words : List UInt8 → List ℕ
  | [] => []
  | [low] => [low.toNat]
  | low :: high :: rest => (low.toNat + 256 * high.toNat) :: words rest

/-- The one's-complement sum of the words of a byte string. -/
def sum (bytes : List UInt8) : ℕ := (words bytes).foldl (OnesComplement.add 16) 0

/-- The checksum a byte string gets: the complement of its sum. -/
def checksum (bytes : List UInt8) : UInt16 := ~~~ UInt16.ofNat (sum bytes)

/-- A byte string with its checksum inside verifies when its words sum to all ones. -/
def Verifies (bytes : List UInt8) : Prop := sum bytes = 0xffff

instance (bytes : List UInt8) : Decidable (Verifies bytes) :=
  inferInstanceAs (Decidable (_ = _))

theorem words_lt (bytes : List UInt8) : ∀ word ∈ words bytes, word < 2 ^ 16 := by
  induction bytes using words.induct with
  | case1 => simp [words]
  | case2 low =>
      have := low.toNat_lt
      simp only [words, List.mem_singleton, forall_eq]
      omega
  | case3 low high rest ih =>
      have := low.toNat_lt
      have := high.toNat_lt
      simp only [words, List.mem_cons, forall_eq_or_imp]
      exact ⟨by omega, ih⟩

theorem sum_eq_fold (bytes : List UInt8) : sum bytes = fold 16 (words bytes).sum := by
  rw [sum, foldl_add_eq_fold _ (words_lt bytes) (by decide), Nat.zero_add]

theorem sum_lt (bytes : List UInt8) : sum bytes < 2 ^ 16 := by
  rw [sum_eq_fold]
  exact fold_lt (by decide)

/-- The sum over a range of memory is the fold of the number the range spells. -/
theorem sum_bytes (m : Memory) (a n : ℕ) : sum (m.bytes a n) = fold 16 (m.load a n) := by
  rw [sum_eq_fold]
  -- two bytes at a time, as `words` takes them
  induction n using Nat.twoStepInduction generalizing a with
  | zero => rfl
  | one => simp [Memory.bytes, words, Memory.load]
  | more n ih _ =>
      have weight (low high rest : ℕ) :
          low + 256 * (high + 256 * rest) = low + 256 * high + 2 ^ 16 * rest := by ring
      rw [Memory.load_succ, Memory.load_succ, weight, fold_add_shift dvd_rfl, Memory.bytes,
        Memory.bytes, words, List.sum_cons, ← fold_add_fold_right, ih, fold_add_fold_right]

theorem verifies_bytes_iff {m : Memory} {a n : ℕ} :
    Verifies (m.bytes a n) ↔ fold 16 (m.load a n) = 0xffff := by
  rw [Verifies, sum_bytes]

end InternetChecksum
