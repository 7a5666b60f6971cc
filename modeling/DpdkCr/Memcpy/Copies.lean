import DpdkCr.Memcpy.Progress

/-!
# Every build of `rte_memcpy` copies

For each of the three implementations, every size and every pair of ranges that do not
meet, what is left behind is the plain copy: the bytes of the source at the destination
and every other byte as it was. The alignment of the two addresses decides which way is
taken, and is of no consequence.

## Main results

* `copyBlock128Back63_eq`, `copyBlock128Back31_eq`, `copyBlock64Back15_eq` — from the
  labels of the source on
* `rteMemcpy_eq_copy` — the copies of all builds
-/

namespace DpdkCr

open Memory Transfer

variable {m : Memory} {dst src n ahead k : ℕ}

/-! ### From the labels on -/

theorem copyBlock128Back63_eq (apart : Apart dst src n) (settled : ahead ≤ k) (inside : k ≤ n)
    (wide : 64 ≤ n) (close : n ≤ k + 128) :
    copyBlock128Back63 (progress m dst src n ahead k) = m.copy dst src n :=
  rest_progress (moves_rteMov64 _) apart wide settled inside close

theorem copyBlock128Back31_eq (apart : Apart dst src n) (settled : ahead ≤ k) (inside : k ≤ n)
    (wide : 32 ≤ n) (close : n ≤ k + 128) :
    copyBlock128Back31 (progress m dst src n ahead k) = m.copy dst src n := by
  obtain ⟨k', further, inside, close, moved⟩ := movedIf_progress (m := m) ahead k
    (moves_rteMov64 .avx2) apart (settled.trans (Nat.le_add_right k 64)) inside close
  rw [copyBlock128Back31, moved,
    rest_progress (moves_rteMov32 _) apart wide (settled.trans further) inside close]

theorem copyBlock64Back15_eq (apart : Apart dst src n) (settled : ahead ≤ k) (inside : k ≤ n)
    (wide : 16 ≤ n) (close : n ≤ k + 64) :
    copyBlock64Back15 (progress m dst src n ahead k) = m.copy dst src n := by
  obtain ⟨k', further, inside, close, moved⟩ := movedIf_progress (m := m) ahead k
    (moves_rteMov32 .sse) apart (settled.trans (Nat.le_add_right k 32)) inside close
  rw [copyBlock64Back15, moved,
    rest_progress moves_rteMov16 apart wide (settled.trans further) inside close]

theorem copyBlock128Back15_eq (apart : Apart dst src n) (settled : ahead ≤ k) (inside : k ≤ n)
    (wide : 16 ≤ n) (close : n ≤ k + 128) :
    copyBlock128Back15 (progress m dst src n ahead k) = m.copy dst src n := by
  obtain ⟨k', further, inside, close, moved⟩ := movedIf_progress (m := m) ahead k
    (moves_rteMov64 .sse) apart (settled.trans (Nat.le_add_right k 64)) inside close
  rw [copyBlock128Back15, moved,
    copyBlock64Back15_eq apart (settled.trans further) inside wide close]

theorem copyBlock255Back15_eq (apart : Apart dst src n) (settled : ahead ≤ k) (inside : k ≤ n)
    (wide : 16 ≤ n) (close : n ≤ k + 256) :
    copyBlock255Back15 (progress m dst src n ahead k) = m.copy dst src n := by
  obtain ⟨k', further, inside, close, moved⟩ := movedIf_progress (m := m) ahead k
    (moves_rteMov128 .sse) apart (settled.trans (Nat.le_add_right k 128)) inside close
  rw [copyBlock255Back15, moved,
    copyBlock128Back15_eq apart (settled.trans further) inside wide close]

/-! ### The builds -/

theorem rteMemcpyAligned_eq {cpuflag : Cpuflag} (apart : Apart dst src n) :
    rteMemcpyAligned cpuflag m dst src n = (dst, m.copy dst src n) := by
  simp only [rteMemcpyAligned, ← progress_zero (m := m)]
  by_cases tiny : n < 16
  · rw [if_pos tiny, progress_zero, bits_eq apart tiny]
  rw [if_neg tiny]
  by_cases small : n ≤ 32
  · rw [if_pos small, twice_progress moves_rteMov16 apart (by omega) (by omega) (by omega)]
  rw [if_neg small]
  by_cases medium : n ≤ 64
  · rw [if_pos medium, twice_progress (moves_rteMov32 _) apart (by omega) (by omega) (by omega)]
  rw [if_neg medium, each_progress (q := n / 64) (r := n % 64) (moves_rteMov64 _) apart (by omega)
    (by omega) (by omega) (Nat.mod_lt _ (by omega)), progress,
    movedBack_eq (moves_rteMov64 _) apart (by omega) (by omega) (by omega) (by omega)]

/-- More than 512 bytes in the AVX512 build. -/
private theorem rteMemcpyGenericAvx512_long (apart : Apart dst src n) (long : 512 < n) :
    rteMemcpyGenericAvx512 m dst src n = (dst, m.copy dst src n) := by
  obtain ⟨ahead, k, bound, behind, start⟩ := aligned_progress (m := m)
    (dst &&& 0x3f) (64 - (dst &&& 0x3f)) (moves_rteMov64 .avx512f) apart (by omega)
    (fun _ => Nat.sub_le _ _)
  have blocks512 := blocks_progress (m := m) 512 9 511 ahead k rfl rfl (moves_movRegisters 64 8)
    apart (by omega) (by omega)
  have blocks128 := blocks_progress (m := m) 128 7 127 ahead (k + (n - k) / 512 * 512) rfl rfl
    (moves_movRegisters 64 2) apart (by omega) (by omega)
  simp only [rteMemcpyGenericAvx512]
  rw [if_neg (by omega), if_neg (by omega), if_neg (by omega), if_neg (by omega), start,
    rteMov512blocks, blocks512, n_progress]
  by_cases more : 128 ≤ n - (k + (n - k) / 512 * 512)
  · rw [if_pos more, rteMov128blocksAvx512, blocks128,
      copyBlock128Back63_eq apart (by omega) (by omega) (by omega) (by omega)]
  · rw [if_neg more, copyBlock128Back63_eq apart (by omega) (by omega) (by omega) (by omega)]

theorem rteMemcpyGenericAvx512_eq (apart : Apart dst src n) :
    rteMemcpyGenericAvx512 m dst src n = (dst, m.copy dst src n) := by
  by_cases long : 512 < n
  · exact rteMemcpyGenericAvx512_long apart long
  simp only [rteMemcpyGenericAvx512]
  by_cases tiny : n < 16
  · rw [if_pos tiny, bits_eq apart tiny]
  rw [if_neg tiny]
  by_cases small : n ≤ 32
  · rw [if_pos small, ← progress_zero,
      twice_progress moves_rteMov16 apart (by omega) (by omega) (by omega)]
  rw [if_neg small]
  by_cases medium : n ≤ 64
  · rw [if_pos medium, ← progress_zero,
      twice_progress (moves_rteMov32 _) apart (by omega) (by omega) (by omega)]
  rw [if_neg medium]
  obtain ⟨k, -, inside, close, first⟩ := movedIf_progress (m := m) 0 0
    moves_rteMov256Avx512 apart (by omega) (by omega) (by omega : n ≤ 0 + 256 + 256)
  obtain ⟨k', -, inside, close, second⟩ := movedIf_progress (m := m) 0 k
    (moves_rteMov128 .avx512f) apart (by omega) inside close
  rw [if_pos (by omega), ← progress_zero, first, second,
    copyBlock128Back63_eq apart (by omega) inside (by omega) close]

/-- More than 256 bytes in the AVX2 build. -/
private theorem rteMemcpyGenericAvx2_long (apart : Apart dst src n) (long : 256 < n) :
    rteMemcpyGenericAvx2 m dst src n = (dst, m.copy dst src n) := by
  obtain ⟨ahead, k, bound, behind, start⟩ := aligned_progress (m := m)
    (dst &&& 0x1f) (32 - (dst &&& 0x1f)) (moves_rteMov32 .avx2) apart (by omega)
    (fun _ => Nat.sub_le _ _)
  have blocks128 := blocks_progress (m := m) 128 7 127 ahead k rfl rfl (moves_movRegisters 32 4)
    apart (by omega) (by omega)
  simp only [rteMemcpyGenericAvx2]
  rw [if_neg (by omega), if_neg (by omega), if_neg (by omega), if_neg (by omega),
    if_neg (by omega), start, rteMov128blocksAvx2, blocks128,
    copyBlock128Back31_eq apart (by omega) (by omega) (by omega) (by omega)]

theorem rteMemcpyGenericAvx2_eq (apart : Apart dst src n) :
    rteMemcpyGenericAvx2 m dst src n = (dst, m.copy dst src n) := by
  by_cases long : 256 < n
  · exact rteMemcpyGenericAvx2_long apart long
  simp only [rteMemcpyGenericAvx2]
  by_cases tiny : n < 16
  · rw [if_pos tiny, bits_eq apart tiny]
  rw [if_neg tiny]
  by_cases small : n ≤ 32
  · rw [if_pos small, ← progress_zero,
      twice_progress moves_rteMov16 apart (by omega) (by omega) (by omega)]
  rw [if_neg small]
  by_cases three : n ≤ 48
  · rw [if_pos three, moves_rteMov16.first apart (by omega), moves_rteMov16.next apart (by omega)]
    exact congrArg _ (movedBack_eq (p := 0) moves_rteMov16 apart (by omega) (by omega) (by omega)
      (by omega))
  rw [if_neg three]
  by_cases medium : n ≤ 64
  · rw [if_pos medium, ← progress_zero,
      twice_progress (moves_rteMov32 _) apart (by omega) (by omega) (by omega)]
  obtain ⟨k, -, inside, close, first⟩ := movedIf_progress (m := m) 0 0
    (moves_rteMov128 .avx2) apart (by omega) (by omega) (by omega : n ≤ 0 + 128 + 128)
  rw [if_neg medium, if_pos (by omega), ← progress_zero, first,
    copyBlock128Back31_eq apart (by omega) inside (by omega) close]

/-- More than 512 bytes in the SSE build, with loads that are aligned or not. -/
private theorem rteMemcpyGenericSse_long (apart : Apart dst src n) (size : n < 2 ^ 64)
    (long : 512 < n) : rteMemcpyGenericSse m dst src n = (dst, m.copy dst src n) := by
  obtain ⟨ahead, k, bound, behind, start⟩ := aligned_progress (m := m)
    (dst &&& 0x0f) (16 - (dst &&& 0x0f) + 16) (moves_rteMov32 .sse) apart (by omega) (by omega)
  simp only [rteMemcpyGenericSse]
  rw [if_neg (by omega), if_neg (by omega), if_neg (by omega), if_neg (by omega),
    if_neg (by omega), if_neg (by omega), start]
  by_cases srcofs : (progress m dst src n ahead k).src &&& 0x0f = 0
  · rw [if_pos srcofs, each_progress (q := (n - k) / 256) (r := (n - k) % 256)
      moves_rteMov256Sse apart (by omega) (by omega) (by omega) (Nat.mod_lt _ (by omega)),
      copyBlock255Back15_eq apart (by omega) (by omega) (by omega) (by omega)]
  · have offset : (progress m dst src n ahead k).src &&& 0x0f ≤ 15 := Nat.and_le_right
    have backwards : (progress m dst src n ahead k).src &&& 0x0f ≤ src + k := Nat.and_le_left
    obtain ⟨k', settled, inside, close, moved⟩ := moveunalignedLeft47_progress (m := m) apart size
      (Nat.pos_of_ne_zero srcofs) offset backwards (by omega : ahead ≤ k + 128) (by omega)
    rw [if_neg srcofs, moved, copyBlock64Back15_eq apart settled inside (by omega) (by omega)]

theorem rteMemcpyGenericSse_eq (apart : Apart dst src n) (size : n < 2 ^ 64) :
    rteMemcpyGenericSse m dst src n = (dst, m.copy dst src n) := by
  by_cases long : 512 < n
  · exact rteMemcpyGenericSse_long apart size long
  simp only [rteMemcpyGenericSse]
  by_cases tiny : n < 16
  · rw [if_pos tiny, bits_eq apart tiny]
  rw [if_neg tiny]
  by_cases small : n ≤ 32
  · rw [if_pos small, ← progress_zero,
      twice_progress moves_rteMov16 apart (by omega) (by omega) (by omega)]
  rw [if_neg small]
  by_cases three : n ≤ 48
  · rw [if_pos three, (moves_rteMov32 _).first apart (by omega)]
    exact congrArg _ (movedBack_eq (p := 0) moves_rteMov16 apart (by omega) (by omega) (by omega)
      (by omega))
  rw [if_neg three]
  by_cases four : n ≤ 64
  · rw [if_pos four, (moves_rteMov32 _).first apart (by omega),
      moves_rteMov16.next apart (by omega)]
    exact congrArg _ (movedBack_eq (p := 0) moves_rteMov16 apart (by omega) (by omega) (by omega)
      (by omega))
  rw [if_neg four]
  by_cases medium : n ≤ 128
  · rw [if_pos medium, ← progress_zero,
      copyBlock128Back15_eq apart le_rfl (by omega) (by omega) (by omega)]
  rw [if_neg medium, if_pos (by omega)]
  by_cases large : 256 ≤ n
  · have head : skip ⟨m.copy dst src (128 + 128), dst, src, n⟩ 256 =
        progress m dst src n 0 256 := rfl
    rw [if_pos large, (moves_rteMov128 _).first apart (by omega),
      (moves_rteMov128 _).next apart (by omega), head,
      copyBlock255Back15_eq apart (by omega) large (by omega) (by omega)]
  · rw [if_neg large, ← progress_zero,
      copyBlock255Back15_eq apart le_rfl (by omega) (by omega) (by omega)]

/-! ### The copy -/

/-- **Every build copies.** Between two ranges that do not meet, `rte_memcpy` leaves the
bytes of the source at the destination and every other byte alone, and returns the
destination. -/
theorem rteMemcpy_eq_copy (cpuflag : Cpuflag) (m : Memory) (dst src n : ℕ) (size : n < 2 ^ 64)
    (apart : Apart dst src n) : rteMemcpy cpuflag m dst src n = (dst, m.copy dst src n) := by
  rw [rteMemcpy]
  split
  case isTrue => exact rteMemcpyAligned_eq apart
  case isFalse =>
      cases cpuflag with
      | avx512f => exact rteMemcpyGenericAvx512_eq apart
      | avx2 => exact rteMemcpyGenericAvx2_eq apart
      | sse => exact rteMemcpyGenericSse_eq apart size

/-- An unaligned copy in the SSE build, long enough for both of its loops. -/
theorem rteMemcpy_eq_copy_unaligned :
    rteMemcpy .sse UInt8.ofNat 4099 65 700 = (4099, copy UInt8.ofNat 4099 65 700) :=
  rteMemcpy_eq_copy .sse UInt8.ofNat 4099 65 700 (by omega) (by decide)

end DpdkCr
