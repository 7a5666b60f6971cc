import DpdkCr.Args.StackBuffer
import Mathlib.Data.List.Induction

/-!
# The byte behind the text

Text is printed up to the first zero byte in memory. `write` stores one behind the text;
`write_byte` does not, and then the text ends properly only if there has been a zero
byte all along.

## Main definitions

* `BufferOp`, `StackBuffer.run` — sequences of operations
* `StackBuffer.Proper` — the buffer is the string that was written

## Main results

* `holds_run` — the bytes of the text, and those behind it
* `proper_iff` — when exactly all strings are proper
-/

namespace DpdkCr

/-- The operations on a buffer. -/
inductive BufferOp
  | append (obj : Text)
  | write (slice : List UInt8)
  | writeByte (byte : UInt8) (count : ℕ)

/-- What an operation writes. -/
def BufferOp.bytes : BufferOp → List UInt8
  | append obj => obj.toSlice
  | write slice => slice
  | writeByte byte count => List.replicate count byte

/-- Everything that is written. -/
def written (ops : List BufferOp) : List UInt8 := ops.flatMap BufferOp.bytes

namespace StackBuffer

def apply (b : StackBuffer) : BufferOp → StackBuffer
  | .append obj => b.append obj
  | .write slice => b.write slice
  | .writeByte byte count => b.writeByte byte count

/-- The operations in turn, on a new buffer. -/
def run (memory : Memory) (ops : List BufferOp) : StackBuffer := ops.foldl apply (new memory)

/-- What `LibC.puts` prints of `size` bytes of memory: those before the first zero byte. -/
def puts (size : ℕ) (b : StackBuffer) : List UInt8 := (b.buffer.bytes 0 size).takeWhile (· ≠ 0)

/-- The buffer is a C string. -/
structure Proper (size : ℕ) (text : List UInt8) (b : StackBuffer) : Prop where
  text_eq : b.buffer.bytes 0 b.pos = text
  terminated : b.buffer b.pos = 0
  puts_eq : b.puts size = text

/-- The text, and the memory as it was behind the byte that ends it. -/
structure Holds (memory : Memory) (text : List UInt8) (b : StackBuffer) : Prop where
  pos_eq : b.pos = text.length
  text_eq : b.buffer.bytes 0 text.length = text
  beyond : ∀ i, b.pos < i → b.buffer i = memory i

variable {memory m : Memory} {text slice : List UInt8} {b : StackBuffer} {byte : UInt8}
variable {size count : ℕ} {op : BufferOp} {ops : List BufferOp}

theorem buffer_write (some : slice.length ≠ 0) :
    (b.write slice).buffer =
      (b.buffer.writeBytes b.pos slice).setU8 (b.pos + slice.length) 0 := by
  rw [StackBuffer.write, if_neg some]

theorem holds_new : Holds memory [] (new memory) where
  pos_eq := rfl
  text_eq := rfl
  beyond _ after := Memory.setU8_outside (.inr after)

/-- A copy to the position continues the text. -/
theorem Holds.bytes_append (holds : Holds memory text b)
    (same : ∀ i < b.pos + slice.length, m i = b.buffer.writeBytes b.pos slice i) :
    m.bytes 0 (text ++ slice).length = text ++ slice := by
  have before : m.bytes 0 text.length = text := by
    rw [← holds.text_eq, Memory.length_bytes]
    apply Memory.bytes_congr
    intro i inside
    rw [← holds.pos_eq] at inside
    rw [Nat.zero_add, same i (Nat.lt_add_right _ inside), Memory.writeBytes_outside (.inl inside)]
  have added : m.bytes (0 + text.length) slice.length = slice := by
    rw [Nat.zero_add, ← holds.pos_eq]
    calc m.bytes b.pos slice.length
        = (b.buffer.writeBytes b.pos slice).bytes b.pos slice.length :=
          Memory.bytes_congr fun i inside => same _ (Nat.add_lt_add_left inside _)
      _ = slice := Memory.bytes_writeBytes slice
  rw [List.length_append, Memory.bytes_add, before, added]

theorem Holds.write (holds : Holds memory text b) (slice : List UInt8) :
    Holds memory (text ++ slice) (b.write slice) := by
  by_cases empty : slice.length = 0
  · rw [List.length_eq_zero_iff.mp empty, List.append_nil]
    exact holds
  · refine ⟨?_, ?_, ?_⟩
    · rw [pos_write, List.length_append, holds.pos_eq]
    · rw [buffer_write empty]
      exact holds.bytes_append fun i inside => Memory.setU8_outside (.inl inside)
    · intro i after
      rw [extends_write.beyond i after, holds.beyond i (extends_write.pos_le.trans_lt after)]

theorem Holds.writeByte (holds : Holds memory text b) (byte : UInt8) (count : ℕ) :
    Holds memory (text ++ List.replicate count byte) (b.writeByte byte count) := by
  refine ⟨?_, holds.bytes_append fun i _ => rfl, ?_⟩
  · rw [List.length_append, List.length_replicate, pos_writeByte, holds.pos_eq]
  · intro i after
    rw [extends_writeByte.beyond i after, holds.beyond i (extends_writeByte.pos_le.trans_lt after)]

theorem Holds.apply (holds : Holds memory text b) (op : BufferOp) :
    Holds memory (text ++ op.bytes) (b.apply op) := by
  cases op with
  | append obj => exact holds.write obj.toSlice
  | write slice => exact holds.write slice
  | writeByte byte count => exact holds.writeByte byte count

theorem run_concat : run memory (ops ++ [op]) = (run memory ops).apply op := by
  rw [run, List.foldl_append]
  rfl

theorem written_concat : written (ops ++ [op]) = written ops ++ op.bytes := by
  rw [written, List.flatMap_append, List.flatMap_singleton, written]

/-- Any sequence of operations leaves the text that it writes. -/
theorem holds_run (memory : Memory) (ops : List BufferOp) :
    Holds memory (written ops) (run memory ops) := by
  induction ops using List.reverseRecOn with
  | nil => exact holds_new
  | append_singleton ops op ih =>
      rw [run_concat, written_concat]
      exact ih.apply op

/-! ### Where the text ends -/

theorem terminated_new : (new memory).buffer (new memory).pos = 0 := by
  change memory.setU8 0 0 0 = 0
  exact Memory.setU8_self

/-- `write` ends the text, or leaves it as it is. -/
theorem terminated_write (ends : b.buffer b.pos = 0) :
    (b.write slice).buffer (b.write slice).pos = 0 := by
  rw [StackBuffer.write]
  split
  · exact ends
  · exact Memory.setU8_self

/-- Behind the bytes of `write_byte` the memory is what it was in the beginning. -/
theorem Holds.buffer_writeByte (holds : Holds memory text b) (some : 0 < count) :
    (b.writeByte byte count).buffer (b.writeByte byte count).pos =
      memory (text.length + count) := by
  have after : b.pos < b.pos + count := Nat.lt_add_of_pos_right some
  change (b.buffer.writeBytes b.pos (List.replicate count byte)) (b.pos + count) = _
  rw [Memory.writeBytes_outside]
  · rw [holds.beyond _ after, holds.pos_eq]
  · rw [List.length_replicate]
    exact .inr le_rfl

theorem writeByte_zero : (b.writeByte byte 0).buffer = b.buffer := by
  funext i
  exact Memory.writeBytes_outside (Nat.lt_or_ge i b.pos)

/-- What is printed of a text that is ended. -/
theorem Holds.proper (holds : Holds memory text b) (nonzero : 0 ∉ text)
    (fits : text.length < size) (ends : b.buffer b.pos = 0) : b.Proper size text := by
  refine ⟨?_, ends, ?_⟩
  · rw [holds.pos_eq]
    exact holds.text_eq
  · obtain ⟨rest, rfl⟩ := Nat.exists_eq_add_of_lt fits
    have all : ∀ c ∈ text, decide (c ≠ 0) := by
      intro c member
      exact decide_eq_true fun zero => nonzero (zero ▸ member)
    rw [holds.pos_eq] at ends
    have next : b.buffer.bytes (0 + text.length) (rest + 1) =
        0 :: b.buffer.bytes (text.length + 1) rest := by
      rw [Nat.zero_add, Memory.bytes, ends]
    rw [puts, Nat.add_assoc, Memory.bytes_add, holds.text_eq, List.takeWhile_append_of_pos all,
      next, List.takeWhile_cons_of_neg (by decide), List.append_nil]

/-- A zero byte behind the bytes of each `write_byte` keeps the text ended. -/
theorem terminated_apply (holds : Holds memory text b) (ends : b.buffer b.pos = 0)
    (spare : ∀ byte count, op = .writeByte byte count → 0 < count →
      memory (text.length + count) = 0) : (b.apply op).buffer (b.apply op).pos = 0 := by
  cases op with
  | append obj => exact terminated_write ends
  | write slice => exact terminated_write ends
  | writeByte byte count =>
      rcases Nat.eq_zero_or_pos count with rfl | some
      · change (b.writeByte byte 0).buffer b.pos = 0
        rw [writeByte_zero, ends]
      · exact (holds.buffer_writeByte some).trans (spare byte count rfl some)

theorem written_prefix {before : List BufferOp} (inside : before <+: ops) :
    written before <+: written ops := by
  obtain ⟨rest, rfl⟩ := inside
  rw [written, written, List.flatMap_append]
  exact List.prefix_append _ _

theorem terminated_run {before : List BufferOp}
    (spare : ∀ before byte count, before ++ [.writeByte byte count] <+: ops → 0 < count →
      memory ((written before).length + count) = 0) (inside : before <+: ops) :
    (run memory before).buffer (run memory before).pos = 0 := by
  induction before using List.reverseRecOn with
  | nil => exact terminated_new
  | append_singleton before op ih =>
      have ends := ih ((List.prefix_append before [op]).trans inside)
      rw [run_concat]
      refine terminated_apply (holds_run memory before) ends ?_
      rintro byte count rfl some
      exact spare before byte count inside some

/-- **Texts are proper strings where memory is zero.** After every operation the buffer is
the string that has been written, if and only if there is a zero byte in the memory
behind the bytes of each `write_byte` to begin with. -/
theorem proper_iff (nonzero : ∀ op ∈ ops, 0 ∉ op.bytes) (fits : (written ops).length < size) :
    (∀ before, before <+: ops → (run memory before).Proper size (written before)) ↔
      ∀ before byte count, before ++ [.writeByte byte count] <+: ops → 0 < count →
        memory ((written before).length + count) = 0 := by
  constructor
  · intro proper before byte count inside some
    have ends := (proper _ inside).terminated
    rw [run_concat] at ends
    exact ((holds_run memory before).buffer_writeByte some).symm.trans ends
  · intro spare before inside
    have front := written_prefix inside
    have absent : 0 ∉ written before := by
      intro member
      obtain ⟨op, among, zero⟩ := List.mem_flatMap.mp (front.subset member)
      exact nonzero op among zero
    exact (holds_run memory before).proper absent (front.length_le.trans_lt fits)
      (terminated_run spare inside)

/-- A name, and a run of padding. -/
def padded : List BufferOp := [.write [97, 98], .writeByte 32 2]

/-- On zeroed memory, padding ends a text. -/
theorem proper_zeroed : (run (fun _ => 0) padded).Proper 5 [97, 98, 32, 32] := by
  have nonzero : ∀ op ∈ padded, 0 ∉ op.bytes := by
    simp [padded, BufferOp.bytes]
  have fits : (written padded).length < 5 := by decide
  exact (proper_iff nonzero fits).mpr (fun _ _ _ _ _ => rfl) padded List.prefix_rfl

/-- On memory that holds anything else, it does not. -/
theorem not_proper_stale :
    ¬ ∀ before, before <+: [.writeByte 32 1] →
      (run (fun _ => 255) before).Proper 5 (written before) := by
  intro proper
  have ends := (proper [.writeByte 32 1] List.prefix_rfl).terminated
  exact absurd ends (by decide)

end StackBuffer

end DpdkCr
