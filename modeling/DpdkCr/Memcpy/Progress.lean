import DpdkCr.Memcpy.Builds
import Mathlib.Data.Nat.Bitwise

/-!
# How far a copy has come

Whatever way a copy takes, its memory is always the first memory with some number of
bytes copied from the front, and its position is at or before that number: only the move
that makes the stores aligned copies further than it steps. From one such state each
move and each loop leads to the next, and the moves that end where the data end lead to
the whole copy.

## Main definitions

* `Moves` — a function that moves so many bytes
* `Transfer.progress` — a copy that has come to a position

## Main results

* `movedIf_progress`, `blocks_progress`, `each_progress` — moves and loops on the way
* `moveunalignedLeft47_progress` — the loops with unaligned loads
* `rest_progress`, `twice_progress`, `bits_eq` — the ends of a copy
-/

namespace DpdkCr

open Memory Semantics

/-! ### Moves -/

/-- A function that moves `width` bytes between ranges that do not meet. -/
def Moves (mov : Memory → ℕ → ℕ → Memory) (width : ℕ) : Prop :=
  ∀ m dst src, Apart dst src width → mov m dst src = m.copy dst src width

section Moves

variable {mov : Memory → ℕ → ℕ → Memory} {width count : ℕ} {m : Memory}
variable {dst src k n w : ℕ}

theorem apart_within (apart : Apart dst src n) (fits : k + w ≤ n) :
    Apart (dst + k) (src + k) w := by
  rcases apart with before | behind
  · exact .inl (by omega)
  · exact .inr (by omega)

/-- A move that begins where a copy has come to takes the copy further. -/
theorem Moves.next (moves : Moves mov w) (apart : Apart dst src n) (fits : k + w ≤ n) :
    mov (m.copy dst src k) (dst + k) (src + k) = m.copy dst src (k + w) := by
  rw [moves _ _ _ (apart_within apart fits), copy_copy_next apart fits]

/-- A move that begins a copy. -/
theorem Moves.first (moves : Moves mov w) (apart : Apart dst src n) (fits : w ≤ n) :
    mov m dst src = m.copy dst src w :=
  moves m dst src (apart_within (k := 0) apart (by omega))

theorem moves_movRegister : Moves (movRegister width) width := fun _ _ _ _ => writeBytes_bytes

theorem moves_movEach (moves : Moves mov width) :
    Moves (movEach mov width count) (count * width) := by
  intro m dst src apart
  refine times_induction (P := fun k moved => moved = m.copy dst src (k * width)) ?_ ?_
  · rw [Nat.zero_mul, copy_zero]
  · rintro k bound moved rfl
    rw [moves.next apart (by rw [← Nat.succ_mul]; exact Nat.mul_le_mul_right width bound),
      Nat.succ_mul]

/-- With all loads before the stores the ranges might even meet. -/
theorem moves_movRegisters (width count : ℕ) :
    Moves (movRegisters width count) (count * width) := by
  intro m dst src _
  refine times_induction (P := fun k stored => stored = m.copy dst src (k * width)) ?_ ?_
  · rw [Nat.zero_mul, copy_zero]
  · rintro k bound stored rfl
    rw [writeBytes_bytes_eq_block, copy, Circular.block_block, Nat.succ_mul, copy]

theorem moves_rteMov16 : Moves rteMov16 16 := moves_movRegister

theorem moves_rteMov32 (cpuflag : Cpuflag) : Moves (rteMov32 cpuflag) 32 := by
  cases cpuflag with
  | avx512f => exact moves_movRegister
  | avx2 => exact moves_movRegister
  | sse => exact moves_movEach moves_rteMov16

theorem moves_rteMov64 (cpuflag : Cpuflag) : Moves (rteMov64 cpuflag) 64 := by
  cases cpuflag with
  | avx512f => exact moves_movRegister
  | avx2 => exact moves_movEach (moves_rteMov32 .avx2)
  | sse => exact moves_movEach moves_rteMov16

theorem moves_rteMov128 (cpuflag : Cpuflag) : Moves (rteMov128 cpuflag) 128 := by
  cases cpuflag with
  | avx512f => exact moves_movEach (moves_rteMov64 .avx512f)
  | avx2 => exact moves_movEach (moves_rteMov32 .avx2)
  | sse => exact moves_movEach moves_rteMov16

theorem moves_rteMov256Avx512 : Moves rteMov256Avx512 256 :=
  moves_movEach (moves_rteMov64 .avx512f)

theorem moves_rteMov256Sse : Moves rteMov256Sse 256 := moves_movEach moves_rteMov16

/-- What is shifted out of two neighbouring vectors is one vector between them. -/
theorem mmAlignrEpi8_bytes {a offset : ℕ} (short : offset ≤ 16) :
    mmAlignrEpi8 (m.bytes (a + 16) 16) (m.bytes a 16) offset = m.bytes (a + offset) 16 := by
  have both : m.bytes a 16 ++ m.bytes (a + 16) 16 =
      m.bytes a offset ++ (m.bytes (a + offset) 16 ++ m.bytes (a + offset + 16) (16 - offset)) := by
    rw [← bytes_add, ← bytes_add, ← bytes_add]
    congr 1
    omega
  rw [mmAlignrEpi8, both, List.drop_append_of_le_length (by rw [length_bytes]),
    List.drop_of_length_le (by rw [length_bytes]), List.nil_append,
    List.take_append_of_le_length (by rw [length_bytes]),
    List.take_of_length_le (by rw [length_bytes])]

/-- Vectors that are shifted out of aligned loads are the vectors of the source. -/
theorem movAlignr_eq {offset : ℕ} (short : offset ≤ 16) (backwards : offset ≤ src) :
    movAlignr offset count m dst src = m.copy dst src (count * 16) := by
  refine times_induction (P := fun k stored => stored = m.copy dst src (k * 16)) ?_ ?_
  · rw [Nat.zero_mul, copy_zero]
  · rintro k bound stored rfl
    have next : src - offset + (k + 1) * 16 = src - offset + k * 16 + 16 := by omega
    have shifted : src - offset + k * 16 + offset = src + k * 16 := by omega
    dsimp only
    rw [next, mmAlignrEpi8_bytes short, shifted, writeBytes_bytes_eq_block, copy,
      Circular.block_block, Nat.succ_mul, copy]

end Moves

/-! ### Positions -/

namespace Transfer

/-- The copy of `n` bytes at position `k`. The first `ahead` bytes were copied before
they were stepped over. -/
def progress (m : Memory) (dst src n ahead k : ℕ) : Transfer :=
  ⟨m.copy dst src (max ahead k), dst + k, src + k, n - k⟩

variable {mov : Memory → ℕ → ℕ → Memory} {m : Memory}
variable {dst src n ahead k w r q width : ℕ}

@[simp] theorem n_progress : (progress m dst src n ahead k).n = n - k := rfl

theorem progress_zero : progress m dst src n 0 0 = ⟨m, dst, src, n⟩ := by
  rw [progress, Nat.max_self, copy_zero]
  rfl

/-- A move that reaches behind what was copied ahead. -/
theorem move_progress (moves : Moves mov w) (apart : Apart dst src n) (further : ahead ≤ k + w)
    (fits : k + w ≤ n) :
    mov (m.copy dst src (max ahead k)) (dst + k) (src + k) =
      m.copy dst src (max ahead (k + w)) := by
  rw [moves _ _ _ (apart_within apart fits), copy_copy apart (le_max_right _ _) (by omega) fits,
    Nat.max_eq_right further]

theorem moved_progress (moves : Moves mov w) (apart : Apart dst src n) (further : ahead ≤ k + w)
    (fits : k + w ≤ n) :
    (progress m dst src n ahead k).moved mov w = progress m dst src n ahead (k + w) := by
  simp only [moved, skip, progress, move_progress moves apart further fits, Nat.add_assoc,
    Nat.sub_sub]

/-- With at most twice as much left, what a conditional move leaves over is no more than
its width. -/
theorem movedIf_progress (ahead k : ℕ) (moves : Moves mov w) (apart : Apart dst src n)
    (further : ahead ≤ k + w) (inside : k ≤ n) (close : n ≤ k + w + w) :
    ∃ k', k ≤ k' ∧ k' ≤ n ∧ n ≤ k' + w ∧
      (progress m dst src n ahead k).movedIf mov w = progress m dst src n ahead k' := by
  rw [movedIf, n_progress]
  by_cases room : w ≤ n - k
  · refine ⟨k + w, Nat.le_add_right k w, by omega, close, ?_⟩
    rw [if_pos room, moved_progress moves apart further (by omega)]
  · exact ⟨k, le_rfl, inside, by omega, by rw [if_neg room]⟩

/-- The move that ends where the data end completes a copy that has come close enough. -/
theorem movedBack_eq {p c : ℕ} (moves : Moves mov w) (apart : Apart dst src n)
    (position : p ≤ n) (wide : w ≤ n) (close : n - w ≤ c) (inside : c ≤ n) :
    movedBack ⟨m.copy dst src c, dst + p, src + p, n - p⟩ mov w = m.copy dst src n := by
  have atDst : dst + p + (n - p) - w = dst + (n - w) := by omega
  have atSrc : src + p + (n - p) - w = src + (n - w) := by omega
  rw [movedBack, atDst, atSrc, moves _ _ _ (apart_within apart (by omega)),
    copy_copy apart close (by omega) (by omega), Nat.sub_add_cancel wide]

/-- A move at the position and one that ends where the data end. -/
theorem twice_progress (moves : Moves mov w) (apart : Apart dst src n) (wide : k + w ≤ n)
    (further : ahead ≤ k + w) (close : n ≤ k + w + w) :
    (progress m dst src n ahead k).twice mov w = m.copy dst src n := by
  simp only [twice, progress, move_progress moves apart further wide, Nat.max_eq_right further]
  exact movedBack_eq moves apart (by omega) (by omega) (by omega) wide

/-- The end of a copy that has at most two moves to go. -/
theorem rest_progress (moves : Moves mov w) (apart : Apart dst src n) (wide : w ≤ n)
    (settled : ahead ≤ k) (inside : k ≤ n) (close : n ≤ k + w + w) :
    (progress m dst src n ahead k).rest mov w = m.copy dst src n := by
  rw [rest, n_progress]
  by_cases more : w < n - k
  · rw [if_pos more, twice_progress moves apart (by omega) (by omega) close]
  rw [if_neg more]
  by_cases left : 0 < n - k
  · rw [progress, if_pos left, movedBack_eq moves apart inside wide (by omega) (by omega)]
  · have all : max ahead k = n := by omega
    rw [if_neg left, progress, all]

/-! ### Loops -/

/-- A block function moves as many blocks as fit. -/
theorem movBlocks_progress (moves : Moves mov width) (apart : Apart dst src n)
    (positive : 0 < width) (further : ahead ≤ k + width) (size : k + q * width + r = n)
    (short : r < width) :
    movBlocks mov width (m.copy dst src (max ahead k)) (dst + k) (src + k) (n - k) =
      m.copy dst src (max ahead (k + q * width)) := by
  induction q generalizing k with
  | zero =>
      rw [movBlocks, if_neg (by omega), Nat.zero_mul, Nat.add_zero]
  | succ q ih =>
      rw [Nat.succ_mul] at size ⊢
      rw [movBlocks, if_pos ⟨positive, by omega⟩, move_progress moves apart further (by omega),
        Nat.sub_sub, Nat.add_assoc, Nat.add_assoc, ih (by omega) (by omega)]
      congr 2
      omega

/-- A loop that steps over each block comes as far as blocks fit. -/
theorem each_progress (moves : Moves mov width) (apart : Apart dst src n)
    (positive : 0 < width) (further : ahead ≤ k + width) (size : k + q * width + r = n)
    (short : r < width) :
    (progress m dst src n ahead k).each mov width = progress m dst src n ahead (k + q * width) := by
  induction q generalizing k with
  | zero =>
      rw [each, n_progress, if_neg (by omega), Nat.zero_mul, Nat.add_zero]
  | succ q ih =>
      rw [Nat.succ_mul] at size ⊢
      rw [each, n_progress, if_pos ⟨positive, by omega⟩,
        moved_progress moves apart further (by omega), ih (by omega) (by omega)]
      congr 1
      omega

/-- After a block function, with blocks of a power of two, less than a block is left. -/
theorem blocks_progress (width e mask ahead k : ℕ) (power : width = 2 ^ e)
    (ones : mask = 2 ^ e - 1) (moves : Moves mov width) (apart : Apart dst src n)
    (further : ahead ≤ k + width) (inside : k ≤ n) :
    (progress m dst src n ahead k).blocks (movBlocks mov width) mask =
      progress m dst src n ahead (k + (n - k) / width * width) := by
  have positive : 0 < width := power ▸ Nat.two_pow_pos e
  have whole := Nat.div_add_mod' (n - k) width
  have moved := movBlocks_progress (m := m) (q := (n - k) / width) (r := (n - k) % width)
    moves apart positive further (by omega) (Nat.mod_lt _ positive)
  have excess : n - k &&& mask = (n - k) % width := by
    rw [ones, Nat.and_two_pow_sub_one_eq_mod, power]
  have left : n - k - (n - k) % width = (n - k) / width * width := by omega
  simp only [blocks, progress, moved, excess, left, Nat.add_assoc]
  congr 1
  omega

/-- The move that aligns the stores copies further than is stepped over. -/
theorem aligned_progress (ofs step : ℕ) (moves : Moves mov w) (apart : Apart dst src n)
    (wide : w ≤ n) (short : 0 < ofs → step ≤ w) :
    ∃ ahead k, ahead ≤ w ∧ k ≤ ahead ∧
      (if 0 < ofs then skip ⟨mov m dst src, dst, src, n⟩ step else ⟨m, dst, src, n⟩) =
        progress m dst src n ahead k := by
  by_cases unaligned : 0 < ofs
  · refine ⟨w, step, le_rfl, short unaligned, ?_⟩
    rw [if_pos unaligned, skip, progress, Nat.max_eq_left (short unaligned),
      moves.first apart wide]
  · exact ⟨0, 0, Nat.zero_le _, le_rfl, by rw [if_neg unaligned, progress_zero]⟩

/-! ### Small sizes -/

/-- A word is moved if the size has its bit, and the position goes on by that bit. -/
theorem movedBit_eq (bit i : ℕ) (power : bit = 2 ^ i) (apart : Apart dst src n)
    (fits : k + (n &&& bit) ≤ n) :
    movedBit ⟨m.copy dst src k, dst + k, src + k, n⟩ bit =
      ⟨m.copy dst src (k + (n &&& bit)), dst + (k + (n &&& bit)), src + (k + (n &&& bit)), n⟩ := by
  have value : n &&& bit = (n.testBit i).toNat * bit := by rw [power, Nat.and_two_pow]
  rw [movedBit]
  cases set : n.testBit i with
  | false =>
      rw [set, Bool.toNat_false, Nat.zero_mul] at value
      rw [value, if_neg (fun nonzero => nonzero rfl)]
      rfl
  | true =>
      rw [set, Bool.toNat_true, Nat.one_mul] at value
      rw [value] at fits
      rw [value, if_pos (power ▸ (Nat.two_pow_pos i).ne'), store_load, copy_copy_next apart fits,
        Nat.add_assoc, Nat.add_assoc]

/-- The bits of a size below 16 are words that make it up. -/
theorem bits_eq (apart : Apart dst src n) (small : n < 16) :
    bits ⟨m, dst, src, n⟩ = m.copy dst src n := by
  have sum : ∀ n < 16, (n &&& 1) + (n &&& 2) + (n &&& 4) + (n &&& 8) = n := by decide
  have whole := sum n small
  have first := movedBit_eq (m := m) (k := 0) 1 0 rfl apart (by omega)
  have second := movedBit_eq (m := m) (k := n &&& 1) 2 1 rfl apart (by omega)
  have third := movedBit_eq (m := m) (k := (n &&& 1) + (n &&& 2)) 4 2 rfl apart (by omega)
  have fourth := movedBit_eq (m := m) (k := (n &&& 1) + (n &&& 2) + (n &&& 4)) 8 3 rfl apart
    (by omega)
  rw [copy_zero, Nat.zero_add, Nat.add_zero, Nat.add_zero] at first
  rw [bits, first, second, third, fourth, whole]

end Transfer

/-! ### Unaligned loads -/

section Unaligned

open Transfer

variable {m : Memory} {dst src n ahead k r q offset : ℕ} {t : Transfer}

/-- A loop of shifted vectors comes as far as whole passes fit. What is left could not
be loaded without reading behind the source. -/
theorem moveunalignedLoop_progress (count ahead : ℕ) (apart : Apart dst src n)
    (positive : 0 < count) (short : offset ≤ 16) (backwards : offset ≤ src + k)
    (further : ahead ≤ k + count * 16)
    (size : k + q * (count * 16) + r = n) (least : 16 - offset ≤ r)
    (most : r < count * 16 + 16 - offset) :
    moveunalignedLoop offset count (progress m dst src n ahead k) =
      progress m dst src n ahead (k + q * (count * 16)) := by
  induction q generalizing k with
  | zero =>
      rw [moveunalignedLoop, n_progress, if_neg (by omega), Nat.zero_mul, Nat.add_zero]
  | succ q ih =>
      rw [Nat.succ_mul] at size ⊢
      have move : movAlignr offset count (m.copy dst src (max ahead k)) (dst + k) (src + k) =
          m.copy dst src (max ahead (k + count * 16)) := by
        rw [movAlignr_eq short backwards, copy_copy apart (le_max_right _ _) (by omega) (by omega),
          Nat.max_eq_right further]
      have moved : (progress m dst src n ahead k).moved (movAlignr offset count) (count * 16) =
          progress m dst src n ahead (k + count * 16) := by
        simp only [Transfer.moved, skip, progress, move, Nat.add_assoc, Nat.sub_sub]
      rw [moveunalignedLoop, n_progress, if_pos ⟨positive, short, by omega⟩, moved,
        ih (by omega) (by omega) (by omega)]
      congr 1
      omega

/-- After its loop the size already is what the masked expression makes of it. -/
theorem moveunalignedTmp_eq (mask e : ℕ) (ones : mask = 2 ^ e - 1) (short : offset ≤ 16)
    (size : t.n < 2 ^ 64) (least : 16 - offset ≤ t.n) (most : t.n ≤ mask + 16 - offset) :
    moveunalignedTmp offset mask t = t := by
  have wraps : (t.n + 2 ^ 64 - 16 + offset) % 2 ^ 64 = t.n + offset - 16 := by omega
  have positive := Nat.two_pow_pos e
  have len : ((t.n + 2 ^ 64 - 16 + offset) % 2 ^ 64 &&& mask) + 16 - offset = t.n := by
    rw [wraps, ones, Nat.and_two_pow_sub_one_eq_mod, Nat.mod_eq_of_lt (by omega)]
    omega
  simp only [moveunalignedTmp, len, Nat.sub_self, Nat.add_zero]

/-- What both loops leave over is at most 47 bytes. -/
theorem moveunalignedLeft47_progress (apart : Apart dst src n) (size : n < 2 ^ 64)
    (offset_pos : 0 < offset) (short : offset ≤ 15) (backwards : offset ≤ src + k)
    (further : ahead ≤ k + 128) (long : k + 144 ≤ n) :
    ∃ k', ahead ≤ k' ∧ k' ≤ n ∧ n < k' + 48 ∧
      moveunalignedLeft47 offset (progress m dst src n ahead k) =
        progress m dst src n ahead k' := by
  obtain ⟨first, left, split, bound⟩ : ∃ q r, k + q * (8 * 16) + r + (16 - offset) = n ∧
      r < 128 := ⟨(n - k - (16 - offset)) / 128, (n - k - (16 - offset)) % 128, by omega, by omega⟩
  have loop := moveunalignedLoop_progress (m := m) (r := left + (16 - offset)) (q := first) 8
    ahead apart (by omega) (by omega) backwards (by omega)
    (by omega) (by omega) (by omega)
  have tmp := moveunalignedTmp_eq (t := progress m dst src n ahead (k + first * (8 * 16)))
    127 7 rfl (by omega : offset ≤ 16)
    (by rw [n_progress]; omega) (by rw [n_progress]; omega) (by rw [n_progress]; omega)
  rw [moveunalignedLeft47, if_pos ⟨offset_pos, short⟩, moveunalignedLeft47Imm, loop, tmp]
  by_cases more : 32 + 16 - offset ≤ n - (k + first * (8 * 16))
  · obtain ⟨second, excess, cut, small⟩ : ∃ q r, q * (2 * 16) + r = left ∧ r < 32 :=
      ⟨left / 32, left % 32, by omega, by omega⟩
    have loop := moveunalignedLoop_progress (m := m) (k := k + first * (8 * 16))
      (r := excess + (16 - offset)) (q := second) 2 ahead apart (by omega) (by omega : offset ≤ 16)
      (by omega) (by omega) (by omega) (by omega) (by omega)
    have tmp := moveunalignedTmp_eq
      (t := progress m dst src n ahead (k + first * (8 * 16) + second * (2 * 16)))
      31 5 rfl (by omega : offset ≤ 16)
      (by rw [n_progress]; omega) (by rw [n_progress]; omega) (by rw [n_progress]; omega)
    refine ⟨k + first * (8 * 16) + second * (2 * 16), by omega, by omega, by omega, ?_⟩
    rw [n_progress, if_pos more, loop, tmp]
  · refine ⟨k + first * (8 * 16), by omega, by omega, by omega, ?_⟩
    rw [n_progress, if_neg more]

end Unaligned

end DpdkCr
