import DpdkCr.Math.LittleEndian
import Mathlib.Order.Basic

/-!
# Attribute chains

Type-length-value records in byte memory. An attribute starts with its length and its
type, sixteen bits each, followed by the payload; the length counts all of these. The
next attribute starts at the next multiple of four, and the padding is zero. So a
chain of known attributes determines every byte of the range it fills.

## Main definitions

* `Attribute` — a type and a payload
* `Chain` — attributes laid out one after the other from `start` to `stop`

## Main results

* `Chain.congr`, `Chain.append` — a chain is a matter of its own bytes, and grows at its end
* `Chain.agree` — two chains of the same attributes are equal byte for byte
-/

/-- A type and a payload. -/
structure Attribute where
  type : UInt16
  payload : List UInt8
  deriving DecidableEq, Repr

namespace Attribute

/-- Round up to a multiple of four. -/
def align (n : ℕ) : ℕ := (n + 3) / 4 * 4

/-- What the length field counts. -/
def length (attr : Attribute) : ℕ := 4 + attr.payload.length

/-- The distance to the next attribute. -/
def room (attr : Attribute) : ℕ := align attr.length

variable {n start stop next i : ℕ} {attr : Attribute} {attrs more : List Attribute}

theorem le_align : n ≤ align n := by
  unfold align
  omega

theorem align_lt : align n < n + 4 := by
  unfold align
  omega

theorem align_of_dvd (aligned : 4 ∣ n) : align n = n := by
  unfold align
  omega

theorem dvd_align : 4 ∣ align n := Nat.dvd_mul_left 4 _

theorem length_le_room : attr.length ≤ attr.room := le_align

theorem four_le_length : 4 ≤ attr.length := Nat.le_add_right 4 _

/-- A payload of whole words needs no padding. -/
theorem room_of_dvd (aligned : 4 ∣ attr.payload.length) : attr.room = 4 + attr.payload.length :=
  align_of_dvd (Nat.dvd_add (Nat.dvd_refl 4) aligned)

/-- The attribute is laid out at `start`, padding included. -/
structure LaidOut (m : Memory) (attr : Attribute) (start : ℕ) : Prop where
  length : m.load start 2 = attr.length
  type : m.load (start + 2) 2 = attr.type.toNat
  payload : m.bytes (start + 4) attr.payload.length = attr.payload
  padding : ∀ i, start + attr.length ≤ i → i < start + attr.room → m i = 0

/-- The attributes are laid out one after the other from `start` to `stop`. -/
def Chain (m : Memory) : List Attribute → (start stop : ℕ) → Prop
  | [], start, stop => start = stop
  | attr :: rest, start, stop => LaidOut m attr start ∧ Chain m rest (start + attr.room) stop

variable {m m' : Memory}

theorem LaidOut.congr (laid : LaidOut m attr start)
    (same : ∀ i, start ≤ i → i < start + attr.room → m' i = m i) : LaidOut m' attr start := by
  have head : attr.length ≤ attr.room := length_le_room
  have total : attr.length = 4 + attr.payload.length := rfl
  refine ⟨?_, ?_, ?_, ?_⟩
  · rw [← laid.length, Memory.load_congr fun i bound => same (start + i) (by omega) (by omega)]
  · rw [← laid.type, Memory.load_congr fun i bound => same (start + 2 + i) (by omega) (by omega)]
  · conv_rhs => rw [← laid.payload]
    exact Memory.bytes_congr fun i bound => same (start + 4 + i) (by omega) (by omega)
  · intro i low high
    rw [same i (by omega) high, laid.padding i low high]

/-- Bytes below the length are those of the fields, and the others are zero. -/
theorem LaidOut.agree (laid : LaidOut m attr start) (laid' : LaidOut m' attr start)
    (low : start ≤ i) (high : i < start + attr.room) : m i = m' i := by
  have total : attr.length = 4 + attr.payload.length := rfl
  have lengths := laid.length.trans laid'.length.symm
  have types := laid.type.trans laid'.type.symm
  have payloads := laid.payload.trans laid'.payload.symm
  -- a byte is in the length, in the type, in the payload or in the padding
  rcases Nat.lt_or_ge i (start + 2) with first | past
  · obtain ⟨k, rfl⟩ := Nat.exists_eq_add_of_le low
    exact Memory.byte_of_load lengths (by omega)
  · rcases Nat.lt_or_ge i (start + 4) with second | past
    · obtain ⟨k, rfl⟩ := Nat.exists_eq_add_of_le (show start + 2 ≤ i by assumption)
      exact Memory.byte_of_load types (by omega)
    · rcases Nat.lt_or_ge i (start + attr.length) with third | past
      · obtain ⟨k, rfl⟩ := Nat.exists_eq_add_of_le (show start + 4 ≤ i by assumption)
        exact Memory.byte_of_bytes payloads (by omega)
      · rw [laid.padding i past high, laid'.padding i past high]

theorem Chain.stop_eq (chain : Chain m attrs start stop) :
    stop = start + (attrs.map room).sum := by
  induction attrs generalizing start with
  | nil => exact Eq.symm chain
  | cons attr rest ih => rw [ih chain.2, List.map_cons, List.sum_cons, Nat.add_assoc]

theorem Chain.le (chain : Chain m attrs start stop) : start ≤ stop := by
  rw [chain.stop_eq]
  exact Nat.le_add_right _ _

theorem Chain.congr (chain : Chain m attrs start stop)
    (same : ∀ i, start ≤ i → i < stop → m' i = m i) : Chain m' attrs start stop := by
  induction attrs generalizing start with
  | nil => exact chain
  | cons attr rest ih =>
      have later := chain.2.le
      constructor
      · apply chain.1.congr
        intro i low high
        exact same i low (high.trans_le later)
      · apply ih chain.2
        intro i low high
        exact same i ((Nat.le_add_right _ _).trans low) high

theorem Chain.append (chain : Chain m attrs start next) (later : Chain m more next stop) :
    Chain m (attrs ++ more) start stop := by
  induction attrs generalizing start with
  | nil =>
      have same : start = next := chain
      rw [same]
      exact later
  | cons attr rest ih => exact ⟨chain.1, ih chain.2⟩

/-- The attributes determine every byte. -/
theorem Chain.agree (chain : Chain m attrs start stop) (chain' : Chain m' attrs start stop)
    (low : start ≤ i) (high : i < stop) : m i = m' i := by
  induction attrs generalizing start with
  | nil =>
      have same : start = stop := chain
      exact absurd (low.trans_lt high) (same ▸ Nat.lt_irrefl _)
  | cons attr rest ih =>
      -- a byte is in the first attribute or in the chain behind it
      rcases Nat.lt_or_ge i (start + attr.room) with inside | past
      · exact chain.1.agree chain'.1 low inside
      · exact ih chain.2 chain'.2 past

end Attribute
