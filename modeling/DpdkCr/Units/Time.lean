import DpdkCr.Units.Strings

/-!
# SI times

`to_si_time` writes a number of microseconds in the largest unit that is not larger than
it, and `apply_from_si_time` replaces the unit by zeros. Unlike for measures, the unit
need not divide the number.

## Main definitions

* `applyFromSiTime`, `toSiTime` — the macros
* `TimeUnit` — the units and their suffixes

## Main results

* `applyFromSiTime_of_downcase` — what digits with a suffix are read as
* `applyFromSiTime_toSiTime_iff` — when exactly a time survives being written and read
-/

namespace DpdkCr

open Decimal

/-! ### The macros -/

/-- `apply_from_si_time`, for an unsigned variable of `width` bits: what is assigned,
unless it raises. -/
def applyFromSiTime (width : ℕ) (s : List UInt8) : Option (BitVec width) :=
  let s := downcase s
  let s := sub s ['u'.toUInt8, 's'.toUInt8] []
  let s := sub s ['m'.toUInt8, 's'.toUInt8] (zeros 3)
  let s := sub s ['s'.toUInt8] (zeros 6)
  (toU64 s).map (unsafeAs width)

/-- `to_si_time`. -/
def toSiTime (n : ℕ) : List UInt8 :=
  if n ≥ 1000000 then toS (n / 1000000) ++ ['s'.toUInt8]
  else if n ≥ 1000 then toS (n / 1000) ++ ['m'.toUInt8, 's'.toUInt8]
  else toS n ++ ['u'.toUInt8, 's'.toUInt8]

/-! ### Units -/

/-- The units of the notation. -/
inductive TimeUnit
  | second | milli | micro
  deriving DecidableEq, Repr

namespace TimeUnit

def suffix : TimeUnit → List UInt8
  | second => ['s'.toUInt8]
  | milli => ['m'.toUInt8, 's'.toUInt8]
  | micro => ['u'.toUInt8, 's'.toUInt8]

/-- The power of ten that a unit is, in microseconds. -/
def exponent : TimeUnit → ℕ
  | second => 6
  | milli => 3
  | micro => 0

/-- The largest unit that is not larger than a time. -/
def largest (n : ℕ) : TimeUnit :=
  if n ≥ 1000000 then second else if n ≥ 1000 then milli else micro

end TimeUnit

section Time

variable {s digits : List UInt8} {c : UInt8} {n width : ℕ} {unit : TimeUnit}

/-- A letter does not occur before or after the digits. -/
theorem not_mem_append_of_digits {t : List UInt8} (all_digits : ∀ c ∈ digits, IsDigit c)
    (letter : ¬ IsDigit c) (absent : c ∉ t) : c ∉ digits ++ t := by
  intro member
  rcases List.mem_append.mp member with digit | last
  · exact letter (all_digits c digit)
  · exact absent last

/-- The substitutions replace the suffix by zeros. -/
theorem sub_suffix (all_digits : ∀ c ∈ digits, IsDigit c) (unit : TimeUnit) :
    sub (sub (sub (digits ++ unit.suffix) ['u'.toUInt8, 's'.toUInt8] [])
      ['m'.toUInt8, 's'.toUInt8] (zeros 3)) ['s'.toUInt8] (zeros 6) =
        digits ++ zeros unit.exponent := by
  have absent {c : UInt8} {t : List UInt8} := not_mem_append_of_digits all_digits (c := c) (t := t)
  have before {c : UInt8} (letter : ¬ IsDigit c) : c ∉ digits := fun member =>
    letter (all_digits c member)
  simp only [sub]
  cases unit with
  | second =>
      rw [Substitution.first_of_not_mem (absent (by decide) (by decide)),
        Substitution.first_of_not_mem (absent (by decide) (by decide))]
      exact Substitution.first_suffix (before (by decide))
  | milli =>
      rw [Substitution.first_of_not_mem (absent (by decide) (by decide)), TimeUnit.suffix,
        Substitution.first_suffix (before (by decide)),
        Substitution.first_of_not_mem (absent (by decide) (by decide))]
      rfl
  | micro =>
      rw [TimeUnit.suffix, Substitution.first_suffix (before (by decide)),
        Substitution.first_of_not_mem (absent (by decide) (by decide)),
        Substitution.first_of_not_mem (absent (by decide) (by decide))]
      rfl

/-- Digits with a suffix are read as that many units. -/
theorem applyFromSiTime_of_downcase (given : digits ≠ []) (all_digits : ∀ c ∈ digits, IsDigit c)
    (lowered : downcase s = digits ++ unit.suffix)
    (number : value digits * 10 ^ unit.exponent = n) (bound : n < 2 ^ 64) :
    applyFromSiTime width s = some (.ofNat width n) := by
  have substituted := sub_suffix all_digits unit
  rw [← lowered] at substituted
  rw [← value_append_zeros] at number
  have read : toU64 (digits ++ zeros unit.exponent) = some (.ofNat n) := by
    refine toU64_eq_some_iff.mpr ⟨List.append_ne_nil_of_left_ne_nil given _, fun c member => ?_,
      number.trans_lt bound, congrArg UInt64.ofNat number.symm⟩
    rcases List.mem_append.mp member with digit | zero
    · exact all_digits c digit
    · exact isDigit_of_mem_zeros zero
  rw [applyFromSiTime, substituted, read, Option.map_some, unsafeAs_ofNat bound]

/-! ### Writing and reading -/

theorem toSiTime_eq (n : ℕ) :
    toSiTime n =
      toS (n / 10 ^ (TimeUnit.largest n).exponent) ++ (TimeUnit.largest n).suffix := by
  rw [toSiTime, TimeUnit.largest]
  split
  · rfl
  split
  · rfl
  · rw [TimeUnit.exponent, pow_zero, Nat.div_one]
    rfl

/-- The text is in small letters. -/
theorem downcase_toSiTime (n : ℕ) : downcase (toSiTime n) = toSiTime n := by
  have small : (TimeUnit.largest n).suffix.map downcaseByte = (TimeUnit.largest n).suffix := by
    cases TimeUnit.largest n <;> decide
  have digits : (toS (n / 10 ^ (TimeUnit.largest n).exponent)).map downcaseByte =
      toS (n / 10 ^ (TimeUnit.largest n).exponent) := by
    refine (List.map_congr_left fun c member => ?_).trans (List.map_id _)
    exact downcaseByte_of_isDigit (isDigit_of_mem_render member)
  rw [toSiTime_eq, downcase, List.map_append, digits, small]

/-- The whole units in a time, which are what is written. -/
def wholeUnits (n : ℕ) : ℕ :=
  n / 10 ^ (TimeUnit.largest n).exponent * 10 ^ (TimeUnit.largest n).exponent

theorem wholeUnits_le (n : ℕ) : wholeUnits n ≤ n := Nat.div_mul_le_self _ _

/-- What is read back is cut to whole units. -/
theorem applyFromSiTime_toSiTime (small : n < 2 ^ 64) :
    applyFromSiTime width (toSiTime n) = some (.ofNat width (wholeUnits n)) := by
  have lowered := (downcase_toSiTime n).trans (toSiTime_eq n)
  refine applyFromSiTime_of_downcase render_ne_nil (fun c member => isDigit_of_mem_render member)
    lowered ?_ ((wholeUnits_le n).trans_lt small)
  rw [value_render, wholeUnits]

/-- Only multiples of the unit that a time is written in are made of whole units. -/
theorem wholeUnits_eq_iff :
    wholeUnits n = n ↔ n < 1000 ∨ n < 1000000 ∧ 1000 ∣ n ∨ 1000000 ∣ n := by
  rw [wholeUnits, ← Nat.dvd_iff_div_mul_eq, TimeUnit.largest]
  split
  case isTrue seconds =>
    change 1000000 ∣ n ↔ _
    omega
  split
  case isTrue millis =>
    change 1000 ∣ n ↔ _
    omega
  case isFalse micros =>
    rw [TimeUnit.exponent, pow_zero]
    exact iff_of_true (one_dvd n) (.inl (Nat.lt_of_not_le micros))

/-- A time is restored if it is a number of the units that it is written in. -/
theorem applyFromSiTime_toSiTime_iff (n : BitVec 64) :
    applyFromSiTime 64 (toSiTime n.toNat) = some n ↔
      n.toNat < 1000 ∨ n.toNat < 1000000 ∧ 1000 ∣ n.toNat ∨ 1000000 ∣ n.toNat := by
  have small : wholeUnits n.toNat < 2 ^ 64 := (wholeUnits_le n.toNat).trans_lt n.isLt
  rw [applyFromSiTime_toSiTime n.isLt, Option.some.injEq, ← BitVec.toNat_inj, BitVec.toNat_ofNat,
    Nat.mod_eq_of_lt small, wholeUnits_eq_iff]

/-- Of one and a half milliseconds one is restored. -/
theorem applyFromSiTime_toSiTime_remainder :
    applyFromSiTime 64 (toSiTime (1500#64).toNat) ≠ some 1500#64 := by
  rw [applyFromSiTime_toSiTime (1500#64).isLt]
  decide

end Time

end DpdkCr
