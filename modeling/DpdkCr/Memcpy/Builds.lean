import DpdkCr.Math.BlockCopy
import DpdkCr.Semantics.Loop

/-!
# The builds of `rte_memcpy`

`rte_memcpy.c` holds three implementations, chosen by the instruction set of the build.
Each copies by moves through vector registers of 16, 32 or 64 bytes: a vector is the
list of its bytes here. Sizes are `size_t` and addresses `uintptr_t`; both are natural
numbers, and the one subtraction that can wrap says so.

The moves that end where the data end repeat bytes that are copied already, and the
long copies begin with a move that makes the stores aligned. The SSE build then loads
at aligned addresses too, and shifts what it stores out of two neighbouring vectors.

## Main definitions

* `Transfer` — the variables of a copy under way
* `rteMemcpyAligned`, `rteMemcpyGeneric`, `rteMemcpy` — the copies, for every build
-/

namespace DpdkCr

open Semantics

/-- `RTE_MACHINE_CPUFLAG_AVX512F`, `RTE_MACHINE_CPUFLAG_AVX2`, or neither. -/
inductive Cpuflag
  | avx512f
  | avx2
  | sse
  deriving DecidableEq, Repr

/-- `ALIGNMENT_MASK`. -/
def alignmentMask : Cpuflag → ℕ
  | .avx512f => 0x3f
  | .avx2 => 0x1f
  | .sse => 0x0f

/-! ### Moves -/

/-- Load a register of `width` bytes and store it. -/
def movRegister (width : ℕ) (m : Memory) (dst src : ℕ) : Memory :=
  m.writeBytes dst (m.bytes src width)

/-- `count` moves of `width` bytes each, one behind the other. -/
def movEach (mov : Memory → ℕ → ℕ → Memory) (width count : ℕ) (m : Memory) (dst src : ℕ) : Memory :=
  times count (fun i m => mov m (dst + i * width) (src + i * width)) m

/-- `rte_mov16`, the same in every build. -/
def rteMov16 : Memory → ℕ → ℕ → Memory := movRegister 16

/-- `rte_mov32`. -/
def rteMov32 : Cpuflag → Memory → ℕ → ℕ → Memory
  | .avx512f => movRegister 32
  | .avx2 => movRegister 32
  | .sse => movEach rteMov16 16 2

/-- `rte_mov64`. -/
def rteMov64 : Cpuflag → Memory → ℕ → ℕ → Memory
  | .avx512f => movRegister 64
  | .avx2 => movEach (rteMov32 .avx2) 32 2
  | .sse => movEach rteMov16 16 4

/-- `rte_mov128`. -/
def rteMov128 : Cpuflag → Memory → ℕ → ℕ → Memory
  | .avx512f => movEach (rteMov64 .avx512f) 64 2
  | .avx2 => movEach (rteMov32 .avx2) 32 4
  | .sse => movEach rteMov16 16 8

/-- `rte_mov256` of the AVX512 build. -/
def rteMov256Avx512 : Memory → ℕ → ℕ → Memory := movEach (rteMov64 .avx512f) 64 4

/-- `rte_mov256` of the SSE build; the AVX2 build has none. -/
def rteMov256Sse : Memory → ℕ → ℕ → Memory := movEach rteMov16 16 16

/-- Load `count` registers of `width` bytes, then store them all. -/
def movRegisters (width count : ℕ) (m : Memory) (dst src : ℕ) : Memory :=
  times count
    (fun i stored => stored.writeBytes (dst + i * width) (m.bytes (src + i * width) width))
    m

/-- The loop of a block function: moves of `width` bytes while that many are left. -/
def movBlocks (mov : Memory → ℕ → ℕ → Memory) (width : ℕ) (m : Memory) (dst src n : ℕ) : Memory :=
  if 0 < width ∧ width ≤ n then
    movBlocks mov width (mov m dst src) (dst + width) (src + width) (n - width)
  else m
termination_by n

/-- `rte_mov128blocks` of the AVX512 build. -/
def rteMov128blocksAvx512 : Memory → ℕ → ℕ → ℕ → Memory := movBlocks (movRegisters 64 2) 128

/-- `rte_mov512blocks` of the AVX512 build. -/
def rteMov512blocks : Memory → ℕ → ℕ → ℕ → Memory := movBlocks (movRegisters 64 8) 512

/-- `rte_mov128blocks` of the AVX2 build. -/
def rteMov128blocksAvx2 : Memory → ℕ → ℕ → ℕ → Memory := movBlocks (movRegisters 32 4) 128

/-! ### Copies under way -/

/-- The variables `dst`, `src` and `n`, and the memory. -/
structure Transfer where
  memory : Memory
  dst : ℕ
  src : ℕ
  n : ℕ

namespace Transfer

variable (t : Transfer)

/-- Step over `width` bytes. -/
def skip (width : ℕ) : Transfer := ⟨t.memory, t.dst + width, t.src + width, t.n - width⟩

/-- Move `width` bytes and step over them. -/
def moved (mov : Memory → ℕ → ℕ → Memory) (width : ℕ) : Transfer :=
  { t with memory := mov t.memory t.dst t.src }.skip width

/-- The same if that many are left. -/
def movedIf (mov : Memory → ℕ → ℕ → Memory) (width : ℕ) : Transfer :=
  if width ≤ t.n then t.moved mov width else t

/-- The last `width` bytes: the move to `dst - width + n`. -/
def movedBack (mov : Memory → ℕ → ℕ → Memory) (width : ℕ) : Memory :=
  mov t.memory (t.dst + t.n - width) (t.src + t.n - width)

/-- The first and the last `width` bytes. -/
def twice (mov : Memory → ℕ → ℕ → Memory) (width : ℕ) : Memory :=
  { t with memory := mov t.memory t.dst t.src }.movedBack mov width

/-- How a copy ends: with two moves, with one, or with none. -/
def rest (mov : Memory → ℕ → ℕ → Memory) (width : ℕ) : Memory :=
  if width < t.n then t.twice mov width
  else if 0 < t.n then t.movedBack mov width
  else t.memory

/-- Move a word if the size has this bit; the size is left alone. -/
def movedBit (bit : ℕ) : Transfer :=
  if t.n &&& bit ≠ 0 then
    { t with
      memory := t.memory.store t.dst bit (t.memory.load t.src bit)
      dst := t.dst + bit
      src := t.src + bit }
  else t

/-- Less than 16 bytes, by the bits of the size. -/
def bits : Memory := ((((t.movedBit 1).movedBit 2).movedBit 4).movedBit 8).memory

/-- A block function, after which `bits = n - (n & mask)` bytes are stepped over. -/
def blocks (mov : Memory → ℕ → ℕ → ℕ → Memory) (mask : ℕ) : Transfer :=
  let moved := mov t.memory t.dst t.src t.n
  let n := t.n &&& mask
  let bits := t.n - n
  ⟨moved, t.dst + bits, t.src + bits, n⟩

/-- Moves of `width` bytes, stepped over one by one, while that many are left. -/
def each (t : Transfer) (mov : Memory → ℕ → ℕ → Memory) (width : ℕ) : Transfer :=
  if 0 < width ∧ width ≤ t.n then (t.moved mov width).each mov width else t
termination_by t.n
decreasing_by simp only [moved, skip]; omega

end Transfer

/-! ### Aligned copies -/

/-- `rte_memcpy_aligned`. -/
def rteMemcpyAligned (cpuflag : Cpuflag) (m : Memory) (dst src n : ℕ) : ℕ × Memory :=
  let ret := dst
  let t : Transfer := ⟨m, dst, src, n⟩
  if n < 16 then (ret, t.bits)
  else if n ≤ 32 then
    (ret, t.twice rteMov16 16)
  else if n ≤ 64 then
    (ret, t.twice (rteMov32 cpuflag) 32)
  else (ret, (t.each (rteMov64 cpuflag) 64).movedBack (rteMov64 cpuflag) 64)

/-! ### The AVX512 build -/

/-- From `COPY_BLOCK_128_BACK63` on. -/
def copyBlock128Back63 (t : Transfer) : Memory := t.rest (rteMov64 .avx512f) 64

/-- `rte_memcpy_generic` of the AVX512 build. -/
def rteMemcpyGenericAvx512 (m : Memory) (dst src n : ℕ) : ℕ × Memory :=
  let ret := dst
  let t : Transfer := ⟨m, dst, src, n⟩
  if n < 16 then (ret, t.bits)
  else if n ≤ 32 then
    (ret, t.twice rteMov16 16)
  else if n ≤ 64 then
    (ret, t.twice (rteMov32 .avx512f) 32)
  else if n ≤ 512 then
    let t := t.movedIf rteMov256Avx512 256
    let t := t.movedIf (rteMov128 .avx512f) 128
    (ret, copyBlock128Back63 t)
  else
    let dstofss := dst &&& 0x3f
    let t :=
      if 0 < dstofss then
        { t with memory := rteMov64 .avx512f t.memory t.dst t.src }.skip (64 - dstofss)
      else t
    let t := t.blocks rteMov512blocks 511
    let t := if 128 ≤ t.n then t.blocks rteMov128blocksAvx512 127 else t
    (ret, copyBlock128Back63 t)

/-! ### The AVX2 build -/

/-- From `COPY_BLOCK_128_BACK31` on. -/
def copyBlock128Back31 (t : Transfer) : Memory :=
  (t.movedIf (rteMov64 .avx2) 64).rest (rteMov32 .avx2) 32

/-- `rte_memcpy_generic` of the AVX2 build. -/
def rteMemcpyGenericAvx2 (m : Memory) (dst src n : ℕ) : ℕ × Memory :=
  let ret := dst
  let t : Transfer := ⟨m, dst, src, n⟩
  if n < 16 then (ret, t.bits)
  else if n ≤ 32 then
    (ret, t.twice rteMov16 16)
  else if n ≤ 48 then
    let m := rteMov16 m dst src
    let m := rteMov16 m (dst + 16) (src + 16)
    (ret, { t with memory := m }.movedBack rteMov16 16)
  else if n ≤ 64 then
    (ret, t.twice (rteMov32 .avx2) 32)
  else if n ≤ 256 then
    (ret, copyBlock128Back31 (t.movedIf (rteMov128 .avx2) 128))
  else
    let dstofss := dst &&& 0x1f
    let t :=
      if 0 < dstofss then
        { t with memory := rteMov32 .avx2 t.memory t.dst t.src }.skip (32 - dstofss)
      else t
    (ret, copyBlock128Back31 (t.blocks rteMov128blocksAvx2 127))

/-! ### The SSE build -/

/-- From `COPY_BLOCK_64_BACK15` on. -/
def copyBlock64Back15 (t : Transfer) : Memory :=
  (t.movedIf (rteMov32 .sse) 32).rest rteMov16 16

/-- From `COPY_BLOCK_128_BACK15` on. -/
def copyBlock128Back15 (t : Transfer) : Memory :=
  copyBlock64Back15 (t.movedIf (rteMov64 .sse) 64)

/-- From `COPY_BLOCK_255_BACK15` on. -/
def copyBlock255Back15 (t : Transfer) : Memory :=
  copyBlock128Back15 (t.movedIf (rteMov128 .sse) 128)

/-- `_mm_alignr_epi8`: 16 bytes of two vectors, from `offset` on in the low one. -/
def mmAlignrEpi8 (high low : List UInt8) (offset : ℕ) : List UInt8 :=
  ((low ++ high).drop offset).take 16

/-- `count` vectors stored, each shifted out of two that are loaded `offset` bytes
before the source. All loads come first. -/
def movAlignr (offset count : ℕ) (m : Memory) (dst src : ℕ) : Memory :=
  let xmm i := m.bytes (src - offset + i * 16) 16
  times count (fun i stored =>
    stored.writeBytes (dst + i * 16) (mmAlignrEpi8 (xmm (i + 1)) (xmm i) offset)) m

/-- A loop of `MOVEUNALIGNED_LEFT47_IMM`, with `count` vectors in each pass. -/
def moveunalignedLoop (offset count : ℕ) (t : Transfer) : Transfer :=
  -- the first two conditions are about constants, and make the loop end
  if 0 < count ∧ offset ≤ 16 ∧ count * 16 + 16 - offset ≤ t.n then
    moveunalignedLoop offset count (t.moved (movAlignr offset count) (count * 16))
  else t
termination_by t.n
decreasing_by simp only [Transfer.moved, Transfer.skip]; omega

/-- What follows a loop: `len` is set to `((len - 16 + offset) & mask) + 16 - offset`,
where the subtraction wraps, and the difference is stepped over. -/
def moveunalignedTmp (offset mask : ℕ) (t : Transfer) : Transfer :=
  let tmp := t.n
  let len := ((t.n + 2 ^ 64 - 16 + offset) % 2 ^ 64 &&& mask) + 16 - offset
  let tmp := tmp - len
  ⟨t.memory, t.dst + tmp, t.src + tmp, len⟩

/-- `MOVEUNALIGNED_LEFT47_IMM`. -/
def moveunalignedLeft47Imm (offset : ℕ) (t : Transfer) : Transfer :=
  let t := moveunalignedTmp offset 127 (moveunalignedLoop offset 8 t)
  if 32 + 16 - offset ≤ t.n then moveunalignedTmp offset 31 (moveunalignedLoop offset 2 t) else t

/-- `MOVEUNALIGNED_LEFT47`: the switch over the offsets of the immediate. -/
def moveunalignedLeft47 (offset : ℕ) (t : Transfer) : Transfer :=
  if 0x01 ≤ offset ∧ offset ≤ 0x0f then moveunalignedLeft47Imm offset t else t

/-- `rte_memcpy_generic` of the SSE build. -/
def rteMemcpyGenericSse (m : Memory) (dst src n : ℕ) : ℕ × Memory :=
  let ret := dst
  let t : Transfer := ⟨m, dst, src, n⟩
  if n < 16 then (ret, t.bits)
  else if n ≤ 32 then
    (ret, t.twice rteMov16 16)
  else if n ≤ 48 then
    (ret, { t with memory := rteMov32 .sse m dst src }.movedBack rteMov16 16)
  else if n ≤ 64 then
    let m := rteMov32 .sse m dst src
    let m := rteMov16 m (dst + 32) (src + 32)
    (ret, { t with memory := m }.movedBack rteMov16 16)
  else if n ≤ 128 then (ret, copyBlock128Back15 t)
  else if n ≤ 512 then
    let t :=
      if 256 ≤ t.n then
        let m := rteMov128 .sse t.memory t.dst t.src
        let m := rteMov128 .sse m (t.dst + 128) (t.src + 128)
        { t with memory := m }.skip 256
      else t
    (ret, copyBlock255Back15 t)
  else
    let dstofss := dst &&& 0x0f
    let t :=
      if 0 < dstofss then
        { t with memory := rteMov32 .sse t.memory t.dst t.src }.skip (16 - dstofss + 16)
      else t
    let srcofs := t.src &&& 0x0f
    if srcofs = 0 then (ret, copyBlock255Back15 (t.each rteMov256Sse 256))
    else (ret, copyBlock64Back15 (moveunalignedLeft47 srcofs t))

/-! ### The copy -/

/-- `rte_memcpy_generic`. -/
def rteMemcpyGeneric : Cpuflag → Memory → ℕ → ℕ → ℕ → ℕ × Memory
  | .avx512f => rteMemcpyGenericAvx512
  | .avx2 => rteMemcpyGenericAvx2
  | .sse => rteMemcpyGenericSse

/-- `rte_memcpy`: the pointer that it returns, and the memory. -/
def rteMemcpy (cpuflag : Cpuflag) (m : Memory) (dst src n : ℕ) : ℕ × Memory :=
  if (dst ||| src) &&& alignmentMask cpuflag = 0 then rteMemcpyAligned cpuflag m dst src n
  else rteMemcpyGeneric cpuflag m dst src n

end DpdkCr
