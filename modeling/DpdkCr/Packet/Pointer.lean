import DpdkCr.Math.LittleEndian

/-!
# Typed access through a byte pointer

The `u8`/`u16`/`u32`/`u64` accessors that the patched `Pointer` offers, on a
little-endian host. A packet pointer is the memory seen from it, so `pkt + n`
is `pkt.offset n`, and no access is bounds-checked.
-/

namespace Memory

/-- Pointer arithmetic in bytes: the memory seen from `p + n`. -/
def offset (p : Memory) (n : ℕ) : Memory := fun i => p (n + i)

def u8 (p : Memory) (offset : ℕ) : UInt8 := p offset

def setU8 (p : Memory) (offset : ℕ) (value : UInt8) : Memory := p.store offset 1 value.toNat

def u16 (p : Memory) (offset : ℕ) : UInt16 := UInt16.ofNat (p.load offset 2)

def setU16 (p : Memory) (offset : ℕ) (value : UInt16) : Memory := p.store offset 2 value.toNat

def u32 (p : Memory) (offset : ℕ) : UInt32 := UInt32.ofNat (p.load offset 4)

def setU32 (p : Memory) (offset : ℕ) (value : UInt32) : Memory := p.store offset 4 value.toNat

def u64 (p : Memory) (offset : ℕ) : UInt64 := UInt64.ofNat (p.load offset 8)

def setU64 (p : Memory) (offset : ℕ) (value : UInt64) : Memory := p.store offset 8 value.toNat

/-- The bytes of a local 64-bit variable, as its address shows them. -/
def pointerof (value : UInt64) : Memory := setU64 (fun _ => 0) 0 value

variable {p q : Memory} {a b i n : ℕ}

@[simp] theorem offset_apply : p.offset n i = p (n + i) := rfl

theorem offset_writeBytes {xs : List UInt8} :
    (p.writeBytes (n + a) xs).offset n = (p.offset n).writeBytes a xs := by
  funext i
  rw [offset_apply, writeBytes, writeBytes, Nat.add_sub_add_left]
  simp only [Nat.add_le_add_iff_left, offset_apply]

@[simp] theorem toNat_u16 : (p.u16 a).toNat = p.load a 2 := by
  rw [u16, UInt16.toNat_ofNat']
  exact Nat.mod_eq_of_lt (load_lt p a 2)

@[simp] theorem toNat_u32 : (p.u32 a).toNat = p.load a 4 := by
  rw [u32, UInt32.toNat_ofNat']
  exact Nat.mod_eq_of_lt (load_lt p a 4)

@[simp] theorem toNat_u64 : (p.u64 a).toNat = p.load a 8 := by
  rw [u64, UInt64.toNat_ofNat']
  exact Nat.mod_eq_of_lt (load_lt p a 8)

/-! ### What a typed store leaves behind -/

@[simp] theorem setU8_self {value : UInt8} : p.setU8 a value a = value := by
  rw [setU8, ← Nat.add_zero a, store_inside Nat.one_pos, pow_zero, Nat.div_one, UInt8.ofNat_toNat]

theorem setU8_outside {value : UInt8} (outside : i < a ∨ a + 1 ≤ i) :
    p.setU8 a value i = p i :=
  store_outside outside

theorem setU16_outside {value : UInt16} (outside : i < a ∨ a + 2 ≤ i) :
    p.setU16 a value i = p i :=
  store_outside outside

theorem setU32_outside {value : UInt32} (outside : i < a ∨ a + 4 ≤ i) :
    p.setU32 a value i = p i :=
  store_outside outside

theorem setU64_outside {value : UInt64} (outside : i < a ∨ a + 8 ≤ i) :
    p.setU64 a value i = p i :=
  store_outside outside

theorem setU64_inside {value : UInt64} (inside : i < 8) :
    p.setU64 a value (a + i) = UInt8.ofNat (value.toNat / 256 ^ i) :=
  store_inside inside

/-- Storing a word read elsewhere copies its bytes. -/
theorem setU16_u16_inside (inside : i < 2) : p.setU16 b (q.u16 a) (b + i) = q (a + i) := by
  rw [setU16, toNat_u16, store_load_inside inside]

theorem setU32_u32_inside (inside : i < 4) : p.setU32 b (q.u32 a) (b + i) = q (a + i) := by
  rw [setU32, toNat_u32, store_load_inside inside]

theorem setU64_u64_inside (inside : i < 8) : p.setU64 b (q.u64 a) (b + i) = q (a + i) := by
  rw [setU64, toNat_u64, store_load_inside inside]

theorem pointerof_apply {value : UInt64} (inside : i < 8) :
    pointerof value i = UInt8.ofNat (value.toNat / 256 ^ i) := by
  rw [pointerof, ← Nat.zero_add i, setU64_inside inside, Nat.zero_add]

@[simp] theorem u16_setU16_self {value : UInt16} : (p.setU16 a value).u16 a = value := by
  rw [← UInt16.toNat_inj, toNat_u16, setU16, load_store_same]
  exact Nat.mod_eq_of_lt value.toNat_lt

@[simp] theorem u64_setU64_self {value : UInt64} : (p.setU64 a value).u64 a = value := by
  rw [← UInt64.toNat_inj, toNat_u64, setU64, load_store_same]
  exact Nat.mod_eq_of_lt value.toNat_lt

@[simp] theorem u32_setU32_self {value : UInt32} : (p.setU32 a value).u32 a = value := by
  rw [← UInt32.toNat_inj, toNat_u32, setU32, load_store_same]
  exact Nat.mod_eq_of_lt value.toNat_lt

/-- A typed store inside a range changes the range's number by the change of the
stored word times its weight. -/
theorem load_setU16_within (p : Memory) (a i k : ℕ) (value : UInt16) :
    (p.setU16 (a + i) value).load a (i + 2 + k) + 256 ^ i * p.load (a + i) 2 =
      p.load a (i + 2 + k) + 256 ^ i * value.toNat := by
  have bound : value.toNat % 256 ^ 2 = value.toNat := Nat.mod_eq_of_lt value.toNat_lt
  rw [setU16, load_store_within, bound]

theorem load_setU8_within (p : Memory) (a i k : ℕ) (value : UInt8) :
    (p.setU8 (a + i) value).load a (i + 1 + k) + 256 ^ i * p.load (a + i) 1 =
      p.load a (i + 1 + k) + 256 ^ i * value.toNat := by
  have bound : value.toNat % 256 ^ 1 = value.toNat := Nat.mod_eq_of_lt value.toNat_lt
  rw [setU8, load_store_within, bound]

/-- A word depends only on the bytes it covers. -/
theorem u32_congr (same : ∀ i < 4, p (a + i) = q (b + i)) : p.u32 a = q.u32 b := by
  rw [u32, u32, load_congr same]

theorem u16_congr (same : ∀ i < 2, p (a + i) = q (b + i)) : p.u16 a = q.u16 b := by
  rw [u16, u16, load_congr same]

/-! ### Words that a typed store does not touch -/

theorem u16_setU16_disjoint {value : UInt16} (disjoint : a + 2 ≤ b ∨ b + 2 ≤ a) :
    (p.setU16 b value).u16 a = p.u16 a := by
  rw [u16, u16, setU16, load_store_disjoint disjoint]

theorem u16_setU64_disjoint {value : UInt64} (disjoint : a + 2 ≤ b ∨ b + 8 ≤ a) :
    (p.setU64 b value).u16 a = p.u16 a := by
  rw [u16, u16, setU64, load_store_disjoint disjoint]

theorem u16_setU8_disjoint {value : UInt8} (disjoint : a + 2 ≤ b ∨ b + 1 ≤ a) :
    (p.setU8 b value).u16 a = p.u16 a := by
  rw [u16, u16, setU8, load_store_disjoint disjoint]

theorem u16_setU32_disjoint {value : UInt32} (disjoint : a + 2 ≤ b ∨ b + 4 ≤ a) :
    (p.setU32 b value).u16 a = p.u16 a := by
  rw [u16, u16, setU32, load_store_disjoint disjoint]

theorem u32_setU8_disjoint {value : UInt8} (disjoint : a + 4 ≤ b ∨ b + 1 ≤ a) :
    (p.setU8 b value).u32 a = p.u32 a := by
  rw [u32, u32, setU8, load_store_disjoint disjoint]

theorem u32_setU16_disjoint {value : UInt16} (disjoint : a + 4 ≤ b ∨ b + 2 ≤ a) :
    (p.setU16 b value).u32 a = p.u32 a := by
  rw [u32, u32, setU16, load_store_disjoint disjoint]

theorem u32_setU32_disjoint {value : UInt32} (disjoint : a + 4 ≤ b ∨ b + 4 ≤ a) :
    (p.setU32 b value).u32 a = p.u32 a := by
  rw [u32, u32, setU32, load_store_disjoint disjoint]

theorem u16_writeBytes_disjoint {xs : List UInt8} (disjoint : a + 2 ≤ b ∨ b + xs.length ≤ a) :
    (p.writeBytes b xs).u16 a = p.u16 a :=
  u16_congr fun _ bound => writeBytes_outside (by omega)

theorem u32_writeBytes_disjoint {xs : List UInt8} (disjoint : a + 4 ≤ b ∨ b + xs.length ≤ a) :
    (p.writeBytes b xs).u32 a = p.u32 a :=
  u32_congr fun _ bound => writeBytes_outside (by omega)

theorem u64_setU16_disjoint {value : UInt16} (disjoint : a + 8 ≤ b ∨ b + 2 ≤ a) :
    (p.setU16 b value).u64 a = p.u64 a := by
  rw [u64, u64, setU16, load_store_disjoint disjoint]

theorem u64_setU64_disjoint {value : UInt64} (disjoint : a + 8 ≤ b ∨ b + 8 ≤ a) :
    (p.setU64 b value).u64 a = p.u64 a := by
  rw [u64, u64, setU64, load_store_disjoint disjoint]

end Memory
