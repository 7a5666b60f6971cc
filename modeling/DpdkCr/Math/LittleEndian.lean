import Mathlib.Algebra.Order.Ring.Nat
import Mathlib.Tactic.Ring

/-!
# Little-endian words in byte memory

Memory is a function from addresses to bytes. A word is loaded as the natural
number its bytes spell in little-endian order and stored byte by byte, so
overlapping accesses of any widths have one meaning: a later store wins on
exactly the bytes it covers.

## Main definitions

* `Memory.load`, `Memory.store` — little-endian access of any width
* `Memory.bytes` — the byte string in a range of addresses

## Main results

* `store_inside`, `store_outside` — a store determines every byte afterwards
* `load_store_same`, `load_store_disjoint` — reading after a store
* `store_load_inside` — a stored loaded word copies its bytes
* `load_store_within` — a store changes the number of an enclosing range by the
  change of the stored word times its weight
-/

/-- Byte-addressed memory. -/
abbrev Memory := ℕ → UInt8

namespace Memory

/-- The `n` bytes from address `a` as a little-endian number. -/
def load (m : Memory) (a : ℕ) : ℕ → ℕ
  | 0 => 0
  | n + 1 => (m a).toNat + 256 * load m (a + 1) n

/-- Store the low `n` bytes of `v` at address `a`, least significant first. -/
def store (m : Memory) (a n v : ℕ) : Memory := fun i =>
  if a ≤ i ∧ i < a + n then UInt8.ofNat (v / 256 ^ (i - a)) else m i

/-- The byte string of length `n` at address `a`. -/
def bytes (m : Memory) (a : ℕ) : ℕ → List UInt8
  | 0 => []
  | n + 1 => m a :: bytes m (a + 1) n

variable {m m' : Memory} {a b i j k n v : ℕ}

@[simp] theorem load_zero : load m a 0 = 0 := rfl

theorem load_succ : load m a (n + 1) = (m a).toNat + 256 * load m (a + 1) n := rfl

theorem load_lt (m : Memory) (a n : ℕ) : load m a n < 256 ^ n := by
  induction n generalizing a with
  | zero => simp
  | succ n ih =>
      have head := (m a).toNat_lt
      have tail := ih (a + 1)
      rw [load_succ, pow_succ]
      omega

/-- A load depends only on the bytes it covers. -/
theorem load_congr (same : ∀ i < n, m (a + i) = m' (b + i)) : load m a n = load m' b n := by
  induction n generalizing a b with
  | zero => rfl
  | succ n ih =>
      have head := same 0 n.succ_pos
      rw [load_succ, load_succ, ← Nat.add_zero a, ← Nat.add_zero b, head, Nat.add_zero,
        Nat.add_zero]
      congr 2
      apply ih
      intro i bound
      rw [Nat.add_assoc, Nat.add_assoc, Nat.add_comm 1]
      exact same (i + 1) (Nat.succ_lt_succ bound)

/-- A load splits into a low and a high part. -/
theorem load_add : load m a (i + j) = load m a i + 256 ^ i * load m (a + i) j := by
  induction i generalizing a with
  | zero => simp
  | succ i ih =>
      rw [Nat.add_right_comm, load_succ, ih, load_succ, pow_succ, Nat.add_assoc a 1,
        Nat.add_comm 1]
      ring

/-- Each byte of a range is a base-256 digit of its number. -/
theorem load_digit (bound : i < n) : load m a n / 256 ^ i % 256 = (m (a + i)).toNat := by
  obtain ⟨rest, rfl⟩ := Nat.exists_eq_add_of_lt bound
  have low := load_lt m a i
  have digit := (m (a + i)).toNat_lt
  rw [Nat.add_assoc, load_add, Nat.add_mul_div_left _ _ (Nat.pow_pos (by decide)),
    Nat.div_eq_of_lt low, Nat.zero_add, load_succ]
  omega

theorem ofNat_load_digit (bound : i < n) : UInt8.ofNat (load m a n / 256 ^ i) = m (a + i) := by
  rw [← UInt8.toNat_inj, UInt8.toNat_ofNat']
  exact load_digit bound

/-- Equal words have equal bytes. -/
theorem byte_of_load (same : load m a n = load m' a n) (inside : i < n) :
    m (a + i) = m' (a + i) := by
  rw [← ofNat_load_digit (m := m) inside, ← ofNat_load_digit (m := m') inside, same]

theorem store_inside (bound : i < n) : store m a n v (a + i) = UInt8.ofNat (v / 256 ^ i) := by
  unfold store
  rw [if_pos (by omega), Nat.add_sub_cancel_left]

theorem store_outside (outside : i < a ∨ a + n ≤ i) : store m a n v i = m i := by
  unfold store
  rw [if_neg (by omega)]

theorem store_congr (same : m i = m' i) : store m a n v i = store m' a n v i := by
  unfold store
  rw [same]

/-- A store of a loaded word copies the bytes it was loaded from. -/
theorem store_load_inside (bound : i < n) : store m b n (load m' a n) (b + i) = m' (a + i) := by
  rw [store_inside bound, ofNat_load_digit bound]

theorem load_store_same : load (store m a n v) a n = v % 256 ^ n := by
  induction n generalizing a v with
  | zero => simp [Nat.mod_one]
  | succ n ih =>
      have head : (store m a (n + 1) v a).toNat = v % 256 := by
        rw [← Nat.add_zero a, store_inside n.succ_pos, pow_zero, Nat.div_one, UInt8.toNat_ofNat']
      have tail : load (store m a (n + 1) v) (a + 1) n = v / 256 % 256 ^ n := by
        rw [← ih (a := a + 1)]
        apply load_congr
        intro i bound
        rw [store_inside bound, Nat.add_assoc, Nat.add_comm 1, store_inside (by omega), pow_succ',
          Nat.div_div_eq_div_mul]
      rw [load_succ, head, tail, pow_succ', Nat.mod_mul]

theorem load_store_disjoint (disjoint : a + n ≤ b ∨ b + k ≤ a) :
    load (store m b k v) a n = load m a n :=
  load_congr fun _ bound => store_outside (by omega)

/-- A store inside a range changes the number of the range by the change of the
stored word times its weight. -/
theorem load_store_within :
    load (store m (a + i) j v) a (i + j + k) + 256 ^ i * load m (a + i) j =
      load m a (i + j + k) + 256 ^ i * (v % 256 ^ j) := by
  have low : load (store m (a + i) j v) a i = load m a i :=
    load_store_disjoint (Or.inl le_rfl)
  have high : load (store m (a + i) j v) (a + i + j) k = load m (a + i + j) k :=
    load_store_disjoint (Or.inr le_rfl)
  -- cut the range around the store: only the middle part changes
  simp only [Nat.add_assoc, load_add]
  rw [low, load_store_same, ← Nat.add_assoc a, high]
  ring

@[simp] theorem length_bytes : (bytes m a n).length = n := by
  induction n generalizing a with
  | zero => rfl
  | succ n ih => rw [bytes, List.length_cons, ih]

theorem bytes_congr (same : ∀ i < n, m (a + i) = m' (b + i)) : bytes m a n = bytes m' b n := by
  induction n generalizing a b with
  | zero => rfl
  | succ n ih =>
      rw [bytes, bytes]
      congr 1
      · exact same 0 n.succ_pos
      · apply ih
        intro i bound
        rw [Nat.add_assoc, Nat.add_assoc, Nat.add_comm 1]
        exact same (i + 1) (Nat.succ_lt_succ bound)

/-- A byte string, and the one behind it. -/
theorem bytes_add : bytes m a (i + j) = bytes m a i ++ bytes m (a + i) j := by
  induction i generalizing a with
  | zero => rw [Nat.zero_add, bytes, List.nil_append, Nat.add_zero]
  | succ i ih =>
      rw [Nat.add_right_comm, bytes, bytes, ih, List.cons_append, Nat.add_assoc, Nat.add_comm 1]

theorem byte_of_bytes (same : bytes m a n = bytes m' a n) (inside : i < n) :
    m (a + i) = m' (a + i) := by
  induction n generalizing a i with
  | zero => exact absurd inside i.not_lt_zero
  | succ n ih =>
      obtain ⟨head, tail⟩ := List.cons.inj same
      cases i with
      | zero => exact head
      | succ i =>
          have next := ih tail (Nat.lt_of_succ_lt_succ inside)
          rwa [Nat.add_assoc, Nat.add_comm 1] at next

/-- Copy a byte string to address `a`. -/
def writeBytes (m : Memory) (a : ℕ) (xs : List UInt8) : Memory := fun i =>
  if a ≤ i then (xs[i - a]?).getD (m i) else m i

theorem writeBytes_outside {xs : List UInt8} (outside : i < a ∨ a + xs.length ≤ i) :
    m.writeBytes a xs i = m i := by
  unfold writeBytes
  split
  · rw [List.getElem?_eq_none (by omega), Option.getD_none]
  · rfl

theorem bytes_writeBytes (xs : List UInt8) : (m.writeBytes a xs).bytes a xs.length = xs := by
  induction xs generalizing m a with
  | nil => rfl
  | cons x xs ih =>
      have head : m.writeBytes a (x :: xs) a = x := by simp [writeBytes]
      have tail : (m.writeBytes a (x :: xs)).bytes (a + 1) xs.length =
          (m.writeBytes (a + 1) xs).bytes (a + 1) xs.length := by
        apply bytes_congr
        intro i _
        have next : a + 1 + i - a = i + 1 := by omega
        rw [writeBytes, writeBytes, if_pos (by omega), if_pos (by omega), next,
          List.getElem?_cons_succ, Nat.add_sub_cancel_left]
      rw [List.length_cons, bytes, head, tail, ih]

end Memory
