import DpdkCr.Units.Strings
import Mathlib.Data.List.Basic

/-!
# SI measures

`apply_from_si_measure` puts zeros in the place of the unit letters of an option's
argument and assigns what then reads as a number; `to_si_measure` writes a number with
the largest unit that divides it. The notation of both is stated without substitutions:
decimal digits, and at most one unit behind them.

## Main definitions

* `applyFromSiMeasure`, `toSiMeasure` — the macros
* `Measure` — a number in the notation, spelled by `Measure.Spells`

## Main results

* `applyFromSiMeasure_eq_some` — the strings that are accepted, and what is assigned
* `appliesMeasure_iff` — when exactly the notation is what is accepted
* `applyFromSiMeasure_toSiMeasure` — measures survive being written and read
-/

namespace DpdkCr

open Decimal

/-! ### The macros -/

/-- `apply_from_si_measure`, for an unsigned variable of `width` bits: what is assigned,
unless it raises. -/
def applyFromSiMeasure (width : ℕ) (s : List UInt8) : Option (BitVec width) :=
  let s := upcase s
  let s := sub s ['G'.toUInt8] (zeros 9)
  let s := sub s ['M'.toUInt8] (zeros 6)
  let s := sub s ['K'.toUInt8] (zeros 3)
  (toU64 s).map (unsafeAs width)

/-- `to_si_measure`. -/
def toSiMeasure (n : ℕ) : List UInt8 :=
  if n ≥ 1000000000 ∧ n % 1000000000 = 0 then toS (n / 1000000000) ++ ['G'.toUInt8]
  else if n ≥ 1000000 ∧ n % 1000000 = 0 then toS (n / 1000000) ++ ['M'.toUInt8]
  else if n ≥ 1000 ∧ n % 1000 = 0 then toS (n / 1000) ++ ['k'.toUInt8]
  else toS n

/-! ### The notation -/

/-- The units of the notation. -/
inductive SiUnit
  | tera | giga | mega | kilo
  deriving DecidableEq, Repr

namespace SiUnit

def exponent : SiUnit → ℕ
  | tera => 12
  | giga => 9
  | mega => 6
  | kilo => 3

def letter : SiUnit → UInt8
  | tera => 'T'.toUInt8
  | giga => 'G'.toUInt8
  | mega => 'M'.toUInt8
  | kilo => 'K'.toUInt8

/-- The capital and the small letter of a unit. -/
def letters (unit : SiUnit) : List UInt8 := [unit.letter, unit.letter + 32]

end SiUnit

/-- One or more digits, and possibly a unit. -/
structure Measure where
  digits : List UInt8
  unit : Option SiUnit
  some_digits : digits ≠ []
  all_digits : ∀ c ∈ digits, IsDigit c

namespace Measure

/-- The number that is denoted. -/
def number (m : Measure) : ℕ := value m.digits * 10 ^ m.unit.elim 0 SiUnit.exponent

/-- The string is the digits, with a letter of the unit behind them if there is one. -/
def Spells (m : Measure) (s : List UInt8) : Prop :=
  match m.unit with
  | none => s = m.digits
  | some unit => ∃ letter ∈ unit.letters, s = m.digits ++ [letter]

end Measure

/-- The notation is what is accepted: a number in it that fits the variable is assigned,
and every other string raises. -/
structure AppliesMeasure (width : ℕ) (s : List UInt8) : Prop where
  assigns : ∀ m : Measure, m.Spells s → m.number < 2 ^ width →
    applyFromSiMeasure width s = some (.ofNat width m.number)
  raises : (∀ m : Measure, m.Spells s → 2 ^ width ≤ m.number) → applyFromSiMeasure width s = none

/-! ### What is accepted -/

/-- The units that are replaced. -/
def replacedUnits : List SiUnit := [.giga, .mega, .kilo]

/-- Digits and the letters of the replaced units in any order, each unit at most once. -/
structure Loose (s : List UInt8) : Prop where
  given : s ≠ []
  known : ∀ c ∈ s, IsDigit c ∨ ∃ unit ∈ replacedUnits, c ∈ unit.letters
  once : ∀ unit ∈ replacedUnits, s.countP (· ∈ unit.letters) ≤ 1

/-- What a character is replaced by. -/
def expansion (c : UInt8) : List UInt8 :=
  if c ∈ SiUnit.giga.letters then zeros 9
  else if c ∈ SiUnit.mega.letters then zeros 6
  else if c ∈ SiUnit.kilo.letters then zeros 3
  else [c]

/-- The number that the string is with each letter replaced. -/
def expanded (s : List UInt8) : ℕ := value (s.flatMap expansion)

/-- The substitutions of the macro. -/
def replacements : List (UInt8 × List UInt8) :=
  replacedUnits.map fun unit => (unit.letter, zeros unit.exponent)

section Accepted

variable {s : List UInt8} {c : UInt8} {unit : SiUnit} {width : ℕ}

theorem mem_letters : c ∈ unit.letters ↔ c = unit.letter ∨ c = unit.letter + 32 := by
  rw [SiUnit.letters, List.mem_cons, List.mem_singleton]

theorem upcaseByte_eq_letter : upcaseByte c = unit.letter ↔ c ∈ unit.letters := by
  have capital : 65 ≤ unit.letter ∧ unit.letter ≤ 90 := by cases unit <;> decide
  rw [upcaseByte_eq_iff capital, mem_letters]

/-- Capital letters come from both cases. -/
theorem count_upcase (unit : SiUnit) :
    (upcase s).count unit.letter = s.countP (· ∈ unit.letters) := by
  rw [upcase, List.count, List.countP_map]
  apply List.countP_congr
  intro c _
  rw [Function.comp_apply, beq_iff_eq, decide_eq_true_iff, upcaseByte_eq_letter]

theorem not_isDigit_letter (unit : SiUnit) : ¬ IsDigit unit.letter := by
  cases unit <;> decide

theorem not_isDigit_of_mem (member : c ∈ unit.letters) : ¬ IsDigit c := by
  rw [← isDigit_upcaseByte, upcaseByte_eq_letter.mpr member]
  exact not_isDigit_letter unit

theorem proper_replacements : Substitution.Proper replacements where
  distinct := by decide
  apart := List.forall_mem_map.mpr fun unit _ =>
    List.forall_mem_map.mpr fun _ _ inside =>
      not_isDigit_letter unit (isDigit_of_mem_zeros inside)

theorem replacement_ne_nil : ∀ entry ∈ replacements, entry.2 ≠ [] := by
  refine List.forall_mem_map.mpr fun unit _ => ?_
  cases unit <;> exact List.cons_ne_nil _ _

/-- Nothing but digits is left of the strings that are only digits and letters of the
replaced units, each unit once. -/
theorem forall_isDigit_each :
    (∀ c ∈ Substitution.each replacements (upcase s), IsDigit c) ↔
      (∀ c ∈ s, IsDigit c ∨ ∃ unit ∈ replacedUnits, c ∈ unit.letters) ∧
        ∀ unit ∈ replacedUnits, s.countP (· ∈ unit.letters) ≤ 1 := by
  have letters : ∀ entry ∈ replacements, ¬ IsDigit entry.1 :=
    List.forall_mem_map.mpr fun unit _ => not_isDigit_letter unit
  have kind : ∀ entry ∈ replacements, ∀ c ∈ entry.2, IsDigit c :=
    List.forall_mem_map.mpr fun _ _ _ inside => isDigit_of_mem_zeros inside
  have listed (c : UInt8) :
      (∃ entry ∈ replacements, upcaseByte c = entry.1) ↔
        ∃ unit ∈ replacedUnits, c ∈ unit.letters := by
    simp only [replacements, List.mem_map, exists_exists_and_eq_and, upcaseByte_eq_letter]
  rw [Substitution.forall_mem_each proper_replacements letters kind]
  apply and_congr
  · rw [upcase, List.forall_mem_map]
    simp only [listed, isDigit_upcaseByte]
  · rw [replacements, List.forall_mem_map]
    simp only [count_upcase]

/-- Letters are replaced in either case, and digits are left. -/
theorem lookup_upcaseByte (known : IsDigit c ∨ ∃ unit ∈ replacedUnits, c ∈ unit.letters) :
    Substitution.lookup replacements (upcaseByte c) = expansion c := by
  change (if upcaseByte c = SiUnit.giga.letter then zeros 9
    else if upcaseByte c = SiUnit.mega.letter then zeros 6
    else if upcaseByte c = SiUnit.kilo.letter then zeros 3
    else [upcaseByte c]) = expansion c
  simp only [expansion, upcaseByte_eq_letter]
  by_cases giga : c ∈ SiUnit.giga.letters
  · rw [if_pos giga, if_pos giga]
  by_cases mega : c ∈ SiUnit.mega.letters
  · rw [if_neg giga, if_pos mega, if_neg giga, if_pos mega]
  by_cases kilo : c ∈ SiUnit.kilo.letters
  · rw [if_neg giga, if_neg mega, if_pos kilo, if_neg giga, if_neg mega, if_pos kilo]
  have digit : IsDigit c := by
    refine known.resolve_right ?_
    rintro ⟨unit, listed, member⟩
    cases unit with
    | tera => exact absurd listed (by decide)
    | giga => exact giga member
    | mega => exact mega member
    | kilo => exact kilo member
  rw [upcaseByte_of_isDigit digit]

theorem each_eq_of_loose (loose : Loose s) :
    Substitution.each replacements (upcase s) = s.flatMap expansion := by
  have once : ∀ entry ∈ replacements, (upcase s).count entry.1 ≤ 1 :=
    List.forall_mem_map.mpr fun unit listed => (count_upcase unit).trans_le (loose.once unit listed)
  rw [Substitution.each_eq_flatMap proper_replacements once, upcase, List.flatMap_map]
  exact List.flatMap_congr fun c member => lookup_upcaseByte (loose.known c member)

/-- What is accepted, and what is assigned. -/
theorem applyFromSiMeasure_eq_some {v : BitVec width} :
    applyFromSiMeasure width s = some v ↔
      Loose s ∧ expanded s < 2 ^ 64 ∧ v = .ofNat width (expanded s) := by
  change (toU64 (Substitution.each replacements (upcase s))).map (unsafeAs width) = some v ↔ _
  rw [Option.map_eq_some_iff]
  constructor
  · rintro ⟨n, read, rfl⟩
    obtain ⟨given, digits, bound, rfl⟩ := toU64_eq_some_iff.mp read
    obtain ⟨known, once⟩ := forall_isDigit_each.mp digits
    have loose : Loose s := ⟨fun empty => given (by rw [empty]; rfl), known, once⟩
    rw [each_eq_of_loose loose] at bound ⊢
    exact ⟨loose, bound, unsafeAs_ofNat bound⟩
  · rintro ⟨loose, bound, rfl⟩
    have digits := forall_isDigit_each.mpr ⟨loose.known, loose.once⟩
    refine ⟨_, toU64_eq_some_iff.mpr ⟨?_, digits, ?_, rfl⟩, ?_⟩
    · exact Substitution.each_ne_nil replacement_ne_nil (mt List.map_eq_nil_iff.mp loose.given)
    · rwa [each_eq_of_loose loose]
    · rw [each_eq_of_loose loose]
      exact unsafeAs_ofNat bound

end Accepted

/-! ### The notation and what is accepted -/

section Notation

variable {s : List UInt8} {c : UInt8} {unit : SiUnit} {width : ℕ} {m : Measure}

theorem expansion_of_isDigit (digit : IsDigit c) : expansion c = [c] := by
  have other (unit : SiUnit) : c ∉ unit.letters := fun member => not_isDigit_of_mem member digit
  rw [expansion, if_neg (other .giga), if_neg (other .mega), if_neg (other .kilo)]

theorem expansion_of_mem (listed : unit ∈ replacedUnits) (member : c ∈ unit.letters) :
    expansion c = zeros unit.exponent := by
  rcases mem_letters.mp member with rfl | rfl <;> cases unit <;> first | rfl | contradiction

theorem flatMap_expansion_of_digits (digits : ∀ c ∈ s, IsDigit c) : s.flatMap expansion = s := by
  induction s with
  | nil => rfl
  | cons c s ih =>
      rw [List.flatMap_cons, expansion_of_isDigit (digits c List.mem_cons_self),
        ih fun d member => digits d (List.mem_cons_of_mem _ member), List.singleton_append]

theorem countP_letters_of_digits (digits : ∀ c ∈ s, IsDigit c) (unit : SiUnit) :
    s.countP (· ∈ unit.letters) = 0 := by
  rw [List.countP_eq_zero]
  intro c member letter
  exact not_isDigit_of_mem (of_decide_eq_true letter) (digits c member)

theorem mem_replacedUnits (replaced : unit ≠ .tera) : unit ∈ replacedUnits := by
  cases unit with
  | tera => exact absurd rfl replaced
  | giga | mega | kilo => decide

/-- A measure without a unit, or with one that is replaced, is accepted. -/
theorem Measure.loose (spells : m.Spells s) (replaced : m.unit ≠ some .tera) : Loose s := by
  obtain ⟨digits, unit, some_digits, all_digits⟩ := m
  cases unit with
  | none =>
      obtain rfl : s = digits := spells
      refine ⟨some_digits, fun c member => .inl (all_digits c member), fun unit _ => ?_⟩
      rw [countP_letters_of_digits all_digits]
      exact Nat.zero_le 1
  | some unit =>
      obtain ⟨letter, member, rfl⟩ : ∃ letter ∈ unit.letters, s = digits ++ [letter] := spells
      have listed := mem_replacedUnits fun tera => replaced (congrArg some tera)
      refine ⟨List.append_ne_nil_of_left_ne_nil some_digits _, fun c among => ?_, fun other _ => ?_⟩
      · rcases List.mem_append.mp among with digit | last
        · exact .inl (all_digits c digit)
        · rw [List.mem_singleton.mp last]
          exact .inr ⟨unit, listed, member⟩
      · rw [List.countP_append, countP_letters_of_digits all_digits, Nat.zero_add]
        exact List.countP_le_length

/-- It is taken for the number that is denoted. -/
theorem Measure.expanded_eq (spells : m.Spells s) (replaced : m.unit ≠ some .tera) :
    expanded s = m.number := by
  obtain ⟨digits, unit, some_digits, all_digits⟩ := m
  cases unit with
  | none =>
      obtain rfl : s = digits := spells
      rw [expanded, flatMap_expansion_of_digits all_digits]
      exact (Nat.mul_one _).symm
  | some unit =>
      obtain ⟨letter, member, rfl⟩ : ∃ letter ∈ unit.letters, s = digits ++ [letter] := spells
      have listed := mem_replacedUnits fun tera => replaced (congrArg some tera)
      rw [expanded, List.flatMap_append, flatMap_expansion_of_digits all_digits,
        List.flatMap_singleton, expansion_of_mem listed member, value_append_zeros]
      rfl

/-- The letter of the largest unit is not replaced. -/
theorem Measure.not_loose (spells : m.Spells s) (tera : m.unit = some .tera) : ¬ Loose s := by
  intro loose
  rw [Measure.Spells, tera] at spells
  obtain ⟨letter, member, rfl⟩ := spells
  rcases loose.known letter (List.mem_append_right _ List.mem_cons_self) with digit | ⟨unit, _, own⟩
  · exact not_isDigit_of_mem member digit
  · rcases mem_letters.mp member with rfl | rfl <;> cases unit <;> contradiction

/-- A number that fits the variable is assigned. -/
theorem applyFromSiMeasure_of_spells (narrow : width ≤ 64) (spells : m.Spells s)
    (replaced : m.unit ≠ some .tera) (fits : m.number < 2 ^ width) :
    applyFromSiMeasure width s = some (.ofNat width m.number) := by
  rw [applyFromSiMeasure_eq_some, m.expanded_eq spells replaced]
  exact ⟨m.loose spells replaced, fits.trans_le (Nat.pow_le_pow_right two_pos narrow), rfl⟩

end Notation

/-! ### Where they differ -/

/-- A number in the largest unit, which has no substitution. -/
def DropsTera (width : ℕ) (s : List UInt8) : Prop :=
  ∃ m : Measure, m.Spells s ∧ m.unit = some .tera ∧ m.number < 2 ^ width

/-- A number that can be read and does not fit the variable. -/
def Overflows (width : ℕ) (s : List UInt8) : Prop :=
  ∃ m : Measure, m.Spells s ∧ m.unit ≠ some .tera ∧ 2 ^ width ≤ m.number ∧ m.number < 2 ^ 64

/-- Letters that are not one unit behind digits. -/
def Misread (s : List UInt8) : Prop :=
  (∀ m : Measure, ¬ m.Spells s) ∧ Loose s ∧ expanded s < 2 ^ 64

/-- The notation is what is accepted but for units that are dropped, numbers that are cut
and letters in other places. -/
theorem appliesMeasure_iff {width : ℕ} {s : List UInt8} (narrow : width ≤ 64) :
    AppliesMeasure width s ↔ ¬ DropsTera width s ∧ ¬ Overflows width s ∧ ¬ Misread s := by
  constructor
  · intro applies
    refine ⟨?_, ?_, ?_⟩
    · rintro ⟨m, spells, tera, fits⟩
      have assigned := applies.assigns m spells fits
      exact m.not_loose spells tera (applyFromSiMeasure_eq_some.mp assigned).1
    · rintro ⟨m, spells, replaced, wide, bound⟩
      rw [← m.expanded_eq spells replaced] at wide bound
      have assigned : applyFromSiMeasure width s = some (.ofNat width (expanded s)) :=
        applyFromSiMeasure_eq_some.mpr ⟨m.loose spells replaced, bound, rfl⟩
      have raised := applies.raises fun other spelled => by
        have also : other.unit ≠ some .tera := fun tera =>
          other.not_loose spelled tera (m.loose spells replaced)
        rwa [← other.expanded_eq spelled also]
      exact Option.some_ne_none _ (assigned.symm.trans raised)
    · rintro ⟨outside, loose, bound⟩
      have assigned : applyFromSiMeasure width s = some (.ofNat width (expanded s)) :=
        applyFromSiMeasure_eq_some.mpr ⟨loose, bound, rfl⟩
      have raised := applies.raises fun m spells => absurd spells (outside m)
      exact Option.some_ne_none _ (assigned.symm.trans raised)
  · rintro ⟨keeps, fits, reads⟩
    refine ⟨fun m spells small => ?_, fun wide => ?_⟩
    · have replaced : m.unit ≠ some .tera := fun tera => keeps ⟨m, spells, tera, small⟩
      exact applyFromSiMeasure_of_spells narrow spells replaced small
    · -- what is accepted is a measure that overflows, or no measure
      rw [Option.eq_none_iff_forall_ne_some]
      intro v assigned
      obtain ⟨loose, bound, -⟩ := applyFromSiMeasure_eq_some.mp assigned
      by_cases spelled : ∃ m : Measure, m.Spells s
      · obtain ⟨m, spells⟩ := spelled
        have replaced : m.unit ≠ some .tera := fun tera => m.not_loose spells tera loose
        rw [m.expanded_eq spells replaced] at bound
        exact fits ⟨m, spells, replaced, wide m spells, bound⟩
      · exact reads ⟨fun m spells => spelled ⟨m, spells⟩, loose, bound⟩

/-- The measure of one unit. -/
def Measure.one (unit : SiUnit) : Measure where
  digits := ['1'.toUInt8]
  unit := some unit
  some_digits := List.cons_ne_nil _ _
  all_digits := List.forall_mem_singleton.mpr (by decide)

/-- One tera, for a variable of 64 bits, raises. -/
theorem not_appliesMeasure_tera : ¬ AppliesMeasure 64 ['1'.toUInt8, 'T'.toUInt8] := by
  intro applies
  have tera : (Measure.one .tera).Spells ['1'.toUInt8, 'T'.toUInt8] :=
    ⟨'T'.toUInt8, List.mem_cons_self, rfl⟩
  have assigned := applies.assigns _ tera (by decide)
  exact Measure.not_loose tera rfl (applyFromSiMeasure_eq_some.mp assigned).1

/-- One kilo is applied to a variable of 16 bits. -/
theorem appliesMeasure_kilo : AppliesMeasure 16 ['1'.toUInt8, 'k'.toUInt8] := by
  have kilo : (Measure.one .kilo).Spells ['1'.toUInt8, 'k'.toUInt8] :=
    ⟨'k'.toUInt8, List.mem_cons_of_mem _ List.mem_cons_self, rfl⟩
  have loose := Measure.loose kilo (by decide)
  have number := Measure.expanded_eq kilo (by decide)
  refine (appliesMeasure_iff (by decide)).mpr ⟨?_, ?_, fun misread => misread.1 _ kilo⟩
  · rintro ⟨m, spells, tera, -⟩
    exact m.not_loose spells tera loose
  · rintro ⟨m, spells, replaced, wide, -⟩
    rw [← m.expanded_eq spells replaced, number] at wide
    exact absurd wide (by decide)

/-! ### Writing and reading -/

/-- A number of units, in decimal. -/
def Measure.render (n : ℕ) (unit : Option SiUnit) : Measure where
  digits := toS n
  unit := unit
  some_digits := render_ne_nil
  all_digits _ member := isDigit_of_mem_render member

@[simp] theorem Measure.number_render (n : ℕ) (unit : Option SiUnit) :
    (Measure.render n unit).number = n * 10 ^ unit.elim 0 SiUnit.exponent :=
  congrArg (· * _) (value_render n)

/-- What is written spells the number, in units that are replaced. -/
theorem exists_spells_toSiMeasure (n : ℕ) :
    ∃ m : Measure, m.Spells (toSiMeasure n) ∧ m.unit ≠ some .tera ∧ m.number = n := by
  rw [toSiMeasure]
  split
  case isTrue giga =>
    refine ⟨.render (n / 1000000000) (some .giga), ⟨_, List.mem_cons_self, rfl⟩, nofun, ?_⟩
    rw [Measure.number_render]
    exact Nat.div_mul_cancel (Nat.dvd_of_mod_eq_zero giga.2)
  split
  case isTrue mega =>
    refine ⟨.render (n / 1000000) (some .mega), ⟨_, List.mem_cons_self, rfl⟩, nofun, ?_⟩
    rw [Measure.number_render]
    exact Nat.div_mul_cancel (Nat.dvd_of_mod_eq_zero mega.2)
  split
  case isTrue kilo =>
    -- the small letter is written
    refine ⟨.render (n / 1000) (some .kilo), ⟨_, List.mem_cons_of_mem _ List.mem_cons_self, rfl⟩,
      nofun, ?_⟩
    rw [Measure.number_render]
    exact Nat.div_mul_cancel (Nat.dvd_of_mod_eq_zero kilo.2)
  · refine ⟨.render n none, rfl, nofun, ?_⟩
    rw [Measure.number_render]
    exact Nat.mul_one n

/-- Writing the number of a variable and applying the text restores it. -/
theorem applyFromSiMeasure_toSiMeasure {width : ℕ} (narrow : width ≤ 64) (n : BitVec width) :
    applyFromSiMeasure width (toSiMeasure n.toNat) = some n := by
  obtain ⟨m, spells, replaced, number⟩ := exists_spells_toSiMeasure n.toNat
  have fits : m.number < 2 ^ width := number ▸ n.isLt
  rw [applyFromSiMeasure_of_spells narrow spells replaced fits, number, BitVec.ofNat_toNat,
    BitVec.setWidth_eq]

/-- Seven billion, in a variable of 64 bits. -/
theorem applyFromSiMeasure_toSiMeasure_giga :
    applyFromSiMeasure 64 (toSiMeasure (7000000000#64).toNat) = some 7000000000#64 :=
  applyFromSiMeasure_toSiMeasure (le_refl 64) 7000000000#64

end DpdkCr
