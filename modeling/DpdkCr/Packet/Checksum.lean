import DpdkCr.Math.InternetChecksum
import DpdkCr.Packet.Pointer
import Mathlib.Tactic.IntervalCases

/-!
# The checksum macro

`checksum` adds 64-bit words with end-around carry, then the 4-, 2- and 1-byte
tails that the low bits of the remaining size select, and folds the sum from 64
to 32 to 16 bits before complementing. Every addition is an end-around-carry
addition of some width, so the whole computation is one 16-bit fold of the
number that the byte range spells, which is the Internet checksum of the range.
-/

namespace DpdkCr

open OnesComplement InternetChecksum

/-- `sum += s; sum += 1 if sum < s`, at any word width. -/
def addCarry {w : ℕ} (sum s : BitVec w) : BitVec w :=
  let sum := sum + s
  if sum < s then sum + 1 else sum

/-- The loop over whole 64-bit words: remaining size, position and sum. -/
def checksumLoop (p : Memory) (size b : ℕ) (sum : BitVec 64) : ℕ × ℕ × BitVec 64 :=
  if size ≥ 8 then checksumLoop p (size - 8) (b + 8) (addCarry sum (p.u64 b).toBitVec)
  else (size, b, sum)

/-- The optional 4-, 2- and 1-byte tails. -/
def checksumTails (p : Memory) (size b : ℕ) (sum : BitVec 64) : BitVec 64 :=
  let (b, sum) :=
    if size &&& 4 ≠ 0 then (b + 4, addCarry sum ((p.u32 b).toBitVec.setWidth 64)) else (b, sum)
  let (b, sum) :=
    if size &&& 2 ≠ 0 then (b + 2, addCarry sum ((p.u16 b).toBitVec.setWidth 64)) else (b, sum)
  if size &&& 1 ≠ 0 then addCarry sum ((p.u8 b).toBitVec.setWidth 64) else sum

/-- Folding the 64-bit sum to 32 and then to 16 bits. -/
def checksumFold (sum : BitVec 64) : BitVec 16 :=
  let t1 := sum.setWidth 32
  let t2 := (sum >>> 32).setWidth 32
  let t1 := addCarry t1 t2
  let t3 := t1.setWidth 16
  let t4 := (t1 >>> 16).setWidth 16
  addCarry t3 t4

/-- `checksum(orig_pkt, orig_size)`. -/
def checksum (p : Memory) (origPkt origSize : ℕ) : UInt16 :=
  let (size, b, sum) := checksumLoop p origSize origPkt 0
  UInt16.ofBitVec (~~~ checksumFold (checksumTails p size b sum))

/-! ### Each addition is an end-around-carry addition -/

/-- The carry test is exact: the wrapped sum is below a summand iff it wrapped,
and adding the carry back does not wrap again. -/
theorem toNat_addCarry {w : ℕ} (sum s : BitVec w) :
    (addCarry sum s).toNat = OnesComplement.add w sum.toNat s.toNat := by
  have left := sum.isLt
  have right := s.isLt
  unfold addCarry OnesComplement.add
  simp only [BitVec.lt_def, BitVec.toNat_add]
  -- no carry leaves the sum at least `s`; a carry takes `2 ^ w`, more than `sum` was, off
  by_cases fits : sum.toNat + s.toNat < 2 ^ w
  · rw [Nat.mod_eq_of_lt fits, if_neg (by omega), if_pos fits, BitVec.toNat_add,
      Nat.mod_eq_of_lt fits]
  · have wrapped : (sum.toNat + s.toNat) % 2 ^ w = sum.toNat + s.toNat - 2 ^ w := by
      rw [Nat.mod_eq_sub_mod (by omega), Nat.mod_eq_of_lt (by omega)]
    have one : (1 : BitVec w).toNat = 1 := by
      rw [show (1 : BitVec w) = BitVec.ofNat w 1 from rfl, BitVec.toNat_ofNat,
        Nat.mod_eq_of_lt (by omega)]
    rw [wrapped, if_pos (by omega), if_neg fits, BitVec.toNat_add, BitVec.toNat_add, wrapped,
      one, Nat.mod_eq_of_lt (by omega)]

theorem toNat_addCarry_eq_fold {w : ℕ} (sum s : BitVec w) :
    (addCarry sum s).toNat = fold w (sum.toNat + s.toNat) := by
  rw [toNat_addCarry, add_eq_fold sum.isLt s.isLt]

/-- Only the 16-bit fold of the running sum matters. -/
theorem fold_addCarry_add (sum s : BitVec 64) (rest : ℕ) :
    fold 16 ((addCarry sum s).toNat + rest) = fold 16 (sum.toNat + s.toNat + rest) := by
  rw [toNat_addCarry_eq_fold, ← fold_add_fold_left, fold_fold_of_dvd (by decide),
    fold_add_fold_left]

theorem fold_addCarry (sum s : BitVec 64) :
    fold 16 (addCarry sum s).toNat = fold 16 (sum.toNat + s.toNat) :=
  fold_addCarry_add sum s 0

/-- An even number of bytes may be split off and added with weight one. -/
theorem fold_add_load {p : Memory} {b i j : ℕ} (even : 2 ∣ i) (rest : ℕ) :
    fold 16 (rest + p.load b (i + j)) = fold 16 (rest + p.load b i + p.load (b + i) j) := by
  have weight : 256 ^ i = 2 ^ (8 * i) := by rw [pow_mul]; norm_num
  rw [Memory.load_add, weight, ← Nat.add_assoc, fold_add_shift (Nat.mul_dvd_mul_left 8 even)]

/-! ### The loop, the tails and the final folds -/

/-- The loop stops with fewer than eight bytes left, having added the others. -/
theorem checksumLoop_spec (p : Memory) (size b : ℕ) (sum : BitVec 64) :
    ∃ rest done total, checksumLoop p size b sum = (rest, b + done, total) ∧
      size = done + rest ∧ rest < 8 ∧ 2 ∣ done ∧
      fold 16 total.toNat = fold 16 (sum.toNat + p.load b done) := by
  induction size, b, sum using checksumLoop.induct p with
  | case1 size b sum long ih =>
      -- eight bytes more are an even number of bytes more, so they may be added with weight one
      obtain ⟨rest, done, total, run, split, short, even, value⟩ := ih
      refine ⟨rest, 8 + done, total, ?_, by omega, short, by omega, ?_⟩
      · rw [checksumLoop, if_pos long, run, Nat.add_assoc]
      · have word : (p.u64 b).toBitVec.toNat = p.load b 8 := Memory.toNat_u64
        calc
          fold 16 total.toNat =
              fold 16 ((addCarry sum (p.u64 b).toBitVec).toNat + p.load (b + 8) done) := value
          _ = fold 16 (sum.toNat + p.load b 8 + p.load (b + 8) done) := by
            rw [fold_addCarry_add, word]
          _ = fold 16 (sum.toNat + p.load b (8 + done)) := (fold_add_load (by decide) _).symm
  | case2 size b sum short =>
      refine ⟨size, 0, sum, ?_, (Nat.zero_add _).symm, by omega, dvd_zero 2, ?_⟩
      · rw [checksumLoop, if_neg short, Nat.add_zero]
      · rw [Memory.load_zero, Nat.add_zero]

/-- The tails add exactly the bytes the loop left. -/
theorem checksumTails_spec (p : Memory) {size : ℕ} (short : size < 8) (b : ℕ) (sum : BitVec 64) :
    fold 16 (checksumTails p size b sum).toNat = fold 16 (sum.toNat + p.load b size) := by
  have wide32 (a : ℕ) : ((p.u32 a).toBitVec.setWidth 64).toNat = p.load a 4 := by
    rw [BitVec.toNat_setWidth_of_le (by decide)]
    exact Memory.toNat_u32
  have wide16 (a : ℕ) : ((p.u16 a).toBitVec.setWidth 64).toNat = p.load a 2 := by
    rw [BitVec.toNat_setWidth_of_le (by decide)]
    exact Memory.toNat_u16
  have wide8 (a : ℕ) : ((p.u8 a).toBitVec.setWidth 64).toNat = p.load a 1 := by
    rw [BitVec.toNat_setWidth_of_le (by decide)]
    rfl
  have split4 (rest a j : ℕ) := fold_add_load (p := p) (b := a) (i := 4) (j := j) (by decide) rest
  have split2 (rest a j : ℕ) := fold_add_load (p := p) (b := a) (i := 2) (j := j) (by decide) rest
  -- one case for each combination of the three low bits of the remaining size
  interval_cases size
  · simp [checksumTails]
  · simp [checksumTails, fold_addCarry, wide8]
  · simp [checksumTails, fold_addCarry, wide16]
  · simp [checksumTails, fold_addCarry, fold_addCarry_add, wide16, wide8, split2 _ _ 1]
  · simp [checksumTails, fold_addCarry, wide32]
  · simp [checksumTails, fold_addCarry, fold_addCarry_add, wide32, wide8, split4 _ _ 1]
  · simp [checksumTails, fold_addCarry, fold_addCarry_add, wide32, wide16, split4 _ _ 2]
  · simp [checksumTails, fold_addCarry, fold_addCarry_add, wide16, wide8, split4 _ _ 3,
      split2 _ _ 1]
    rw [Nat.add_assoc, fold_addCarry_add, wide32, ← Nat.add_assoc]

/-- Adding the two halves of a word with end-around carry folds it to half its width. -/
theorem toNat_addCarry_halves {w : ℕ} (word : BitVec (w + w)) :
    (addCarry (word.setWidth w) ((word >>> w).setWidth w)).toNat = fold w word.toNat := by
  have bound := word.isLt
  rw [pow_add] at bound
  have high : word.toNat / 2 ^ w < 2 ^ w := Nat.div_lt_of_lt_mul bound
  rw [toNat_addCarry_eq_fold, BitVec.toNat_setWidth, BitVec.toNat_setWidth,
    BitVec.toNat_ushiftRight, Nat.shiftRight_eq_div_pow, Nat.mod_eq_of_lt high,
    ← fold_add_shift dvd_rfl, Nat.mod_add_div]

/-- The two narrowing additions fold a 64-bit sum to 16 bits. -/
theorem toNat_checksumFold (sum : BitVec 64) : (checksumFold sum).toNat = fold 16 sum.toNat := by
  have first := toNat_addCarry_halves (w := 32) sum
  have second := toNat_addCarry_halves (w := 16)
    (addCarry (sum.setWidth 32) ((sum >>> 32).setWidth 32))
  rw [first, fold_fold_of_dvd (by decide)] at second
  exact second

/-- The macro computes the 16-bit fold of the number that its byte range spells. -/
theorem toNat_checksum (p : Memory) (origPkt origSize : ℕ) :
    (checksum p origPkt origSize).toNat = 0xffff - fold 16 (p.load origPkt origSize) := by
  obtain ⟨rest, done, total, run, split, short, even, value⟩ :=
    checksumLoop_spec p origSize origPkt 0
  unfold checksum
  simp only [run, UInt16.toNat_ofBitVec, BitVec.toNat_not, toNat_checksumFold]
  -- the loop and the tails cut the range in two; the parts are one load again
  rw [checksumTails_spec p short, ← fold_add_fold_left, value, fold_add_fold_left, split,
    ← fold_add_load even]
  simp

/-- The macro returns zero over a range exactly when the range verifies. -/
theorem checksum_eq_zero_iff {p : Memory} {origPkt origSize : ℕ} :
    checksum p origPkt origSize = 0 ↔ Verifies (p.bytes origPkt origSize) := by
  have bound : fold 16 (p.load origPkt origSize) < 2 ^ 16 := fold_lt (by decide)
  rw [verifies_bytes_iff, ← UInt16.toNat_inj, toNat_checksum, UInt16.toNat_zero]
  omega

/-- **The checksum macro is the Internet checksum**, for every byte string of every length. -/
theorem checksum_eq_internetChecksum (p : Memory) (origPkt origSize : ℕ) :
    checksum p origPkt origSize = InternetChecksum.checksum (p.bytes origPkt origSize) := by
  have bound := sum_lt (p.bytes origPkt origSize)
  rw [← UInt16.toNat_inj, toNat_checksum, InternetChecksum.checksum, UInt16.toNat_not,
    UInt16.toNat_ofNat', Nat.mod_eq_of_lt bound, sum_bytes]
  rfl

end DpdkCr
