import DpdkCr.Math.Decimal
import DpdkCr.Math.Substitution

/-!
# String functions for units

The methods of strings and integers that the unit macros of `units.cr` chain, on the
bytes of a string. A release build maps the case of ASCII letters only, and `to_u64`
reads decimal digits only.

## Main definitions

* `upcase`, `downcase`, `sub`, `toU64`, `toS` — the methods
* `unsafeAs` — the conversion to the type of the variable that is assigned

## Main results

* `toU64_eq_some_iff`, `unsafeAs_ofNat` — what is read, and what is assigned
-/

namespace DpdkCr

open Decimal

def upcaseByte (c : UInt8) : UInt8 := if 97 ≤ c ∧ c ≤ 122 then c - 32 else c

def downcaseByte (c : UInt8) : UInt8 := if 65 ≤ c ∧ c ≤ 90 then c + 32 else c

/-- `String#upcase`, byte by byte. -/
def upcase (s : List UInt8) : List UInt8 := s.map upcaseByte

/-- `String#downcase`. -/
def downcase (s : List UInt8) : List UInt8 := s.map downcaseByte

/-- `String#sub`: the first occurrence of the pattern is replaced. -/
def sub (s pattern replacement : List UInt8) : List UInt8 :=
  Substitution.first pattern replacement s

/-- `String#to_u64`. It raises unless the string is a decimal number below `2 ^ 64`. -/
def toU64 (s : List UInt8) : Option UInt64 :=
  if s ≠ [] ∧ s.all (fun c => decide (IsDigit c)) ∧ value s < 2 ^ 64 then
    some (.ofNat (value s))
  else none

/-- `Int#to_s`. -/
def toS (n : ℕ) : List UInt8 := render n

/-- `unsafe_as` of a 64-bit number for a variable of `width` bits: its low bytes. -/
def unsafeAs (width : ℕ) (n : UInt64) : BitVec width := n.toBitVec.setWidth width

variable {s : List UInt8} {n width : ℕ} {c letter : UInt8}

/-- A capital letter comes from itself or from its small letter. -/
theorem upcaseByte_eq_iff (capital : 65 ≤ letter ∧ letter ≤ 90) :
    upcaseByte c = letter ↔ c = letter ∨ c = letter + 32 := by
  simp only [UInt8.le_iff_toNat_le] at capital
  change 65 ≤ letter.toNat ∧ letter.toNat ≤ 90 at capital
  have small : (letter + 32).toNat = letter.toNat + 32 := by
    have room : letter.toNat + 32 < 2 ^ 8 := by omega
    rw [UInt8.toNat_add]
    exact Nat.mod_eq_of_lt room
  rw [upcaseByte, ← UInt8.toNat_inj, ← UInt8.toNat_inj, ← UInt8.toNat_inj, small]
  split
  case isTrue lower =>
    have lowered : (c - 32).toNat = c.toNat - 32 :=
      UInt8.toNat_sub_of_le _ _ (UInt8.le_trans (by decide) lower.1)
    simp only [UInt8.le_iff_toNat_le] at lower
    change 97 ≤ c.toNat ∧ c.toNat ≤ 122 at lower
    rw [lowered]
    omega
  case isFalse other =>
    simp only [UInt8.le_iff_toNat_le] at other
    change ¬ (97 ≤ c.toNat ∧ c.toNat ≤ 122) at other
    omega

theorem upcaseByte_of_isDigit (digit : IsDigit c) : upcaseByte c = c := by
  refine if_neg ?_
  rintro ⟨lower, -⟩
  exact absurd (UInt8.le_trans lower digit.2) (by decide)

theorem downcaseByte_of_isDigit (digit : IsDigit c) : downcaseByte c = c := by
  refine if_neg ?_
  rintro ⟨upper, -⟩
  exact absurd (UInt8.le_trans upper digit.2) (by decide)

/-- Only digits become digits. -/
theorem isDigit_upcaseByte : IsDigit (upcaseByte c) ↔ IsDigit c := by
  constructor
  · intro digit
    rw [upcaseByte] at digit
    split at digit
    case isTrue lower =>
      have high : 65 ≤ c - 32 := by
        rw [UInt8.le_iff_toNat_le, UInt8.toNat_sub_of_le _ _ (UInt8.le_trans (by decide) lower.1)]
        have least := UInt8.le_iff_toNat_le.mp lower.1
        change 97 ≤ c.toNat at least
        change 65 ≤ c.toNat - 32
        omega
      exact absurd (UInt8.le_trans high digit.2) (by decide)
    case isFalse => exact digit
  · intro digit
    rwa [upcaseByte_of_isDigit digit]

theorem toU64_eq_some_iff {v : UInt64} :
    toU64 s = some v ↔
      s ≠ [] ∧ (∀ c ∈ s, IsDigit c) ∧ value s < 2 ^ 64 ∧ v = .ofNat (value s) := by
  have digits : s.all (fun c => decide (IsDigit c)) = true ↔ ∀ c ∈ s, IsDigit c := by
    simp only [List.all_eq_true, decide_eq_true_iff]
  rw [toU64, Option.ite_none_right_eq_some, Option.some.injEq, and_assoc, and_assoc, digits,
    eq_comm]

/-- The low bits of a number that was read are those of the number. -/
theorem unsafeAs_ofNat (bound : n < 2 ^ 64) :
    unsafeAs width (.ofNat n) = BitVec.ofNat width n := by
  apply BitVec.eq_of_toNat_eq
  have whole : (UInt64.ofNat n).toBitVec.toNat = n := by
    rw [UInt64.toNat_toBitVec, UInt64.toNat_ofNat', Nat.mod_eq_of_lt bound]
  rw [unsafeAs, BitVec.toNat_setWidth, whole, BitVec.toNat_ofNat]

end DpdkCr
