import DpdkCr.Packet.Pointer
import Mathlib.Data.List.TakeWhile

/-!
# Strings and text buffers

A Crystal string is given by its characters: `size` counts these, and the bytes are
their UTF-8 encoding. A `StackBuffer` appends strings to memory that the caller
provides. Neither looks at any bound.

## Main definitions

* `Text`, `Text.toSlice`, `Text.find` — strings and their bytes
* `StackBuffer` — the buffer, with a record of its stores

## Main results

* `Text.find_space` — a space is found where the text before it ends
* `StackBuffer.Bounded`, `StackBuffer.Ended` — how far the stores reach
* `StackBuffer.Extends` — nothing is stored further behind the text
-/

namespace DpdkCr

/-- A string. -/
abbrev Text := List Char

namespace Text

variable {s : Text} {c : Char}

/-- `String#size`: the number of characters. -/
def size (s : Text) : ℕ := s.length

/-- `String#to_slice`: the bytes. -/
def toSlice (s : Text) : List UInt8 := s.flatMap String.utf8EncodeChar

/-- `String#find`: the index of the first byte equal to `ch`. -/
def find (s : Text) (ch : UInt8) : Option ℕ := s.toSlice.findIdx? (· == ch)

/-- The bytes of the text before the first space. -/
def word (s : Text) : List UInt8 := toSlice (s.takeWhile (· ≠ ' '))

theorem toSlice_append {t : Text} : toSlice (s ++ t) = s.toSlice ++ t.toSlice :=
  List.flatMap_append

theorem utf8EncodeChar_of_ascii (ascii : c.toNat < 128) :
    String.utf8EncodeChar c = [UInt8.ofNat c.toNat] :=
  if_pos (Nat.le_of_lt_succ ascii)

/-- No other character has the byte of a space in its encoding. -/
theorem eq_space_of_mem (member : (32 : UInt8) ∈ String.utf8EncodeChar c) : c = ' ' := by
  -- the bytes of a longer encoding all have the high bit
  have high {n b : ℕ} (low : 128 ≤ b) (small : n + b < 256) :
      (32 : UInt8) ≠ UInt8.ofNat (n + b) := by
    intro same
    have value := congrArg UInt8.toNat same
    rw [UInt8.toNat_ofNat', Nat.mod_eq_of_lt small] at value
    change 32 = n + b at value
    omega
  simp only [String.utf8EncodeChar] at member
  split at member
  · have value := congrArg UInt8.toNat (List.mem_singleton.mp member)
    rw [UInt8.toNat_ofNat', Nat.mod_eq_of_lt (by omega)] at value
    exact Char.ext (UInt32.toNat_inj.mp value.symm)
  · split at member
    · simp only [List.mem_cons, List.not_mem_nil, or_false] at member
      rcases member with same | same <;> exact absurd same (high (by decide) (by omega))
    · split at member
      · simp only [List.mem_cons, List.not_mem_nil, or_false] at member
        rcases member with same | same | same <;> exact absurd same (high (by decide) (by omega))
      · simp only [List.mem_cons, List.not_mem_nil, or_false] at member
        rcases member with same | same | same | same <;>
          exact absurd same (high (by decide) (by omega))

/-- Spaces are found as bytes where they are as characters. -/
theorem find_space (s : Text) : s.find 32 = if ' ' ∈ s then some s.word.length else none := by
  induction s with
  | nil => rfl
  | cons c s ih =>
      by_cases space : c = ' '
      · rw [space, if_pos List.mem_cons_self]
        rfl
      -- the search goes past the bytes of any other character
      · have absent : (String.utf8EncodeChar c).findIdx? (· == 32) = none := by
          rw [List.findIdx?_eq_none_iff]
          intro byte member
          rw [beq_eq_false_iff_ne]
          intro same
          exact space (eq_space_of_mem (same ▸ member))
        have later : ' ' ∈ c :: s ↔ ' ' ∈ s := by
          rw [List.mem_cons, or_iff_right (Ne.symm space)]
        have word : word (c :: s) = String.utf8EncodeChar c ++ word s := by
          rw [Text.word, List.takeWhile_cons_of_pos (by simp [space]), toSlice, List.flatMap_cons]
          rfl
        rw [find, toSlice, List.flatMap_cons, List.findIdx?_append, absent, Option.none_or]
        change ((find s 32).map fun i => i + (String.utf8EncodeChar c).length) = _
        rw [ih, word, List.length_append]
        by_cases member : ' ' ∈ s
        · rw [if_pos member, if_pos (later.mpr member), Option.map_some, Nat.add_comm]
        · rw [if_neg member, if_neg (mt later.mp member), Option.map_none]

/-- The text before the first space is a prefix of the bytes. -/
theorem take_word (s : Text) : s.toSlice.take s.word.length = s.word := by
  have split : s.toSlice = s.word ++ toSlice (s.dropWhile (· ≠ ' ')) := by
    rw [word, ← toSlice_append, List.takeWhile_append_dropWhile]
  rw [split, List.take_left']
  rfl

theorem length_toSlice_of_ascii (ascii : ∀ c ∈ s, c.toNat < 128) : s.toSlice.length = s.size := by
  induction s with
  | nil => rfl
  | cons c s ih =>
      have first := utf8EncodeChar_of_ascii (ascii c List.mem_cons_self)
      have rest := ih fun d member => ascii d (List.mem_cons_of_mem _ member)
      rw [toSlice, List.flatMap_cons, first, List.singleton_append, List.length_cons, size,
        List.length_cons]
      exact congrArg (· + 1) rest

theorem takeWhile_of_not_mem (absent : ' ' ∉ s) : s.takeWhile (· ≠ ' ') = s := by
  rw [List.takeWhile_eq_self_iff]
  intro c member
  exact decide_eq_true fun space => absent (space ▸ member)

/-- What is copied as a name: the bytes up to the first space, or else as many as the
string has characters. -/
def name (s : Text) : List UInt8 := s.toSlice.take ((s.find 32).getD s.size)

/-- A space ends the name, or it is ASCII. -/
def Whole (s : Text) : Prop := ' ' ∈ s ∨ ∀ c ∈ s.takeWhile (· ≠ ' '), c.toNat < 128

/-- Such a name is copied whole. -/
theorem name_eq_word (whole : s.Whole) : s.name = s.word := by
  rw [name, find_space]
  by_cases member : ' ' ∈ s
  · rw [if_pos member, Option.getD_some, take_word]
  · -- without a space the copy takes as many bytes as there are characters
    have ascii := whole.resolve_left member
    rw [takeWhile_of_not_mem member] at ascii
    rw [if_neg member, Option.getD_none, ← length_toSlice_of_ascii ascii, List.take_length, word,
      takeWhile_of_not_mem member]

end Text

/-- A buffer, the position after its text, and every store so far as an offset and a
length. The record of the stores is what can be said about bounds. -/
structure StackBuffer where
  buffer : Memory
  pos : ℕ
  stores : List (ℕ × ℕ)

namespace StackBuffer

/-- `initialize`. -/
def new (buffer : Memory) : StackBuffer := ⟨buffer.setU8 0 0, 0, [(0, 1)]⟩

/-- `write`: a copy, and a zero byte behind it. -/
def write (b : StackBuffer) (slice : List UInt8) : StackBuffer :=
  let count := slice.length
  if count = 0 then b
  else
    { buffer := (b.buffer.writeBytes b.pos slice).setU8 (b.pos + count) 0
      pos := b.pos + count
      stores := b.stores ++ [(b.pos, count), (b.pos + count, 1)] }

/-- `<<`. -/
def append (b : StackBuffer) (obj : Text) : StackBuffer := b.write obj.toSlice

/-- `write_byte`: `count` copies of one byte. -/
def writeByte (b : StackBuffer) (byte : UInt8) (count : ℕ) : StackBuffer :=
  { buffer := b.buffer.writeBytes b.pos (List.replicate count byte)
    pos := b.pos + count
    stores := b.stores ++ [(b.pos, count)] }

variable {b : StackBuffer} {slice : List UInt8} {byte : UInt8} {count : ℕ}

@[simp] theorem pos_write : (b.write slice).pos = b.pos + slice.length := by
  rw [write]
  split
  · rename_i empty
    rw [empty, Nat.add_zero]
  · rfl

@[simp] theorem pos_append {obj : Text} : (b.append obj).pos = b.pos + obj.toSlice.length :=
  pos_write

@[simp] theorem pos_writeByte : (b.writeByte byte count).pos = b.pos + count := rfl

/-- No store reaches further than the byte behind the text. -/
def Bounded (b : StackBuffer) : Prop := ∀ store ∈ b.stores, store.1 + store.2 ≤ b.pos + 1

/-- The byte behind the text has been stored to. -/
def Ended (b : StackBuffer) : Prop := (b.pos, 1) ∈ b.stores

theorem bounded_new {buffer : Memory} : Bounded (new buffer) := by
  intro store member
  rw [List.mem_singleton.mp member]
  exact le_rfl

theorem ended_new {buffer : Memory} : Ended (new buffer) := List.mem_singleton_self _

theorem Bounded.write (bounded : Bounded b) : Bounded (b.write slice) := by
  rw [StackBuffer.write]
  split
  · exact bounded
  · intro store member
    rcases List.mem_append.mp member with earlier | added
    · exact (bounded store earlier).trans (by simp)
    · simp only [List.mem_cons, List.not_mem_nil, or_false] at added
      rcases added with rfl | rfl
      · exact Nat.le_succ _
      · exact le_rfl

theorem Bounded.writeByte (bounded : Bounded b) : Bounded (b.writeByte byte count) := by
  intro store member
  rcases List.mem_append.mp member with earlier | added
  · exact (bounded store earlier).trans (by simp)
  · rw [List.mem_singleton.mp added]
    exact Nat.le_succ _

theorem Ended.write (ended : Ended b) : Ended (b.write slice) := by
  rw [StackBuffer.write]
  split
  · exact ended
  · exact List.mem_append_right _ (by simp)

/-- Text of at least one byte ends in a zero byte, whatever was there before. -/
theorem ended_write (some : slice ≠ []) : Ended (b.write slice) := by
  rw [StackBuffer.write, if_neg (mt List.length_eq_zero_iff.mp some)]
  exact List.mem_append_right _ (by simp)

/-- All stores are within `size` bytes exactly when the text and the byte behind it are. -/
theorem inside_iff (bounded : Bounded b) (ended : Ended b) (size : ℕ) :
    (∀ store ∈ b.stores, store.1 + store.2 ≤ size) ↔ b.pos + 1 ≤ size :=
  ⟨fun inside => inside _ ended, fun room store member => (bounded store member).trans room⟩

/-- The text has grown, and the memory is what it was behind it and the byte that ends it. -/
structure Extends (b b' : StackBuffer) : Prop where
  pos_le : b.pos ≤ b'.pos
  beyond : ∀ i, b'.pos < i → b'.buffer i = b.buffer i

variable {b' b'' : StackBuffer}

theorem Extends.refl : b.Extends b := ⟨le_rfl, fun _ _ => rfl⟩

theorem Extends.trans (first : b.Extends b') (second : b'.Extends b'') : b.Extends b'' := by
  refine ⟨first.pos_le.trans second.pos_le, ?_⟩
  intro i after
  rw [second.beyond i after, first.beyond i (second.pos_le.trans_lt after)]

theorem extends_write : b.Extends (b.write slice) := by
  refine ⟨?_, ?_⟩
  · rw [pos_write]
    exact Nat.le_add_right _ _
  · intro i after
    rw [pos_write] at after
    rw [write]
    split
    · rfl
    · change (b.buffer.writeBytes b.pos slice).setU8 (b.pos + slice.length) 0 i = _
      rw [Memory.setU8_outside (.inr after), Memory.writeBytes_outside (.inr (Nat.le_of_lt after))]

theorem extends_writeByte : b.Extends (b.writeByte byte count) := by
  refine ⟨Nat.le_add_right _ _, ?_⟩
  intro i after
  apply Memory.writeBytes_outside
  rw [List.length_replicate]
  exact .inr (Nat.le_of_lt after)

end StackBuffer

end DpdkCr
