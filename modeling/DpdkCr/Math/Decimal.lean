import Mathlib.Data.List.Induction
import Mathlib.Data.Nat.Digits.Defs
import Mathlib.Tactic.Ring

/-!
# Decimal digit strings

Natural numbers as strings of ASCII digits, most significant first.

## Main definitions

* `Decimal.value` — the number of a digit string
* `Decimal.render` — the digits of a number

## Main results

* `value_append` — the number of a concatenation
* `value_render` — rendering a number and reading it back
-/

namespace Decimal

def IsDigit (c : UInt8) : Prop := 48 ≤ c ∧ c ≤ 57

instance (c : UInt8) : Decidable (IsDigit c) := inferInstanceAs (Decidable (_ ∧ _))

/-- The number of a digit. -/
def digit (c : UInt8) : ℕ := c.toNat - 48

/-- The character of a number below ten. -/
def character (d : ℕ) : UInt8 := .ofNat (48 + d)

def zeros (k : ℕ) : List UInt8 := List.replicate k 48

/-- The number of a digit string. -/
def value (s : List UInt8) : ℕ := s.foldl (fun n c => 10 * n + digit c) 0

/-- The digits of a number. -/
def render (n : ℕ) : List UInt8 :=
  if n = 0 then [48] else (Nat.digits 10 n).reverse.map character

variable {s t : List UInt8} {c : UInt8} {d k n : ℕ}

@[simp] theorem value_nil : value [] = 0 := rfl

theorem value_concat : value (s ++ [c]) = 10 * value s + digit c := by
  rw [value, List.foldl_append, value]
  rfl

theorem value_append : value (s ++ t) = value s * 10 ^ t.length + value t := by
  induction t using List.reverseRecOn with
  | nil => simp
  | append_singleton t c ih =>
      rw [← List.append_assoc, value_concat, value_concat, ih, List.length_append,
        List.length_singleton, pow_succ]
      ring

@[simp] theorem length_zeros : (zeros k).length = k := List.length_replicate

theorem value_zeros : value (zeros k) = 0 := by
  induction k with
  | zero => rfl
  | succ k ih =>
      rw [zeros, List.replicate_succ', value_concat]
      change 10 * value (zeros k) + 0 = 0
      rw [ih]

/-- Zeros at the end are a power of ten. -/
theorem value_append_zeros : value (s ++ zeros k) = value s * 10 ^ k := by
  rw [value_append, value_zeros, length_zeros, Nat.add_zero]

theorem isDigit_of_mem_zeros (member : c ∈ zeros k) : IsDigit c := by
  rw [List.eq_of_mem_replicate member]
  decide

theorem toNat_character (small : d < 10) : (character d).toNat = 48 + d := by
  rw [character, UInt8.toNat_ofNat', Nat.mod_eq_of_lt (by omega)]

theorem isDigit_character (small : d < 10) : IsDigit (character d) := by
  rw [IsDigit, UInt8.le_iff_toNat_le, UInt8.le_iff_toNat_le, toNat_character small]
  exact ⟨Nat.le_add_right 48 d, Nat.add_le_add_left (Nat.le_of_lt_succ small) 48⟩

theorem digit_character (small : d < 10) : digit (character d) = d := by
  rw [digit, toNat_character small, Nat.add_sub_cancel_left]

/-! ### Rendering -/

theorem render_ne_nil : render n ≠ [] := by
  rw [render]
  split
  · exact List.cons_ne_nil _ _
  case isFalse positive =>
    rw [ne_eq, List.map_eq_nil_iff, List.reverse_eq_nil_iff]
    exact Nat.digits_ne_nil_iff_ne_zero.mpr positive

theorem isDigit_of_mem_render (member : c ∈ render n) : IsDigit c := by
  rw [render] at member
  split at member
  · rw [List.mem_singleton.mp member]
    decide
  · obtain ⟨d, among, rfl⟩ := List.mem_map.mp member
    exact isDigit_character (Nat.digits_lt_base (by decide) (List.mem_reverse.mp among))

/-- The characters of some digits, most significant first, spell their number. -/
theorem value_map_character {digits : List ℕ} (small : ∀ d ∈ digits, d < 10) :
    value (digits.reverse.map character) = Nat.ofDigits 10 digits := by
  induction digits with
  | nil => rfl
  | cons d digits ih =>
      have first := digit_character (small d List.mem_cons_self)
      have rest := ih fun e among => small e (List.mem_cons_of_mem _ among)
      rw [List.reverse_cons, List.map_append, List.map_singleton, value_concat, first, rest,
        Nat.ofDigits_cons, Nat.add_comm]

/-- Reading back a rendered number. -/
theorem value_render (n : ℕ) : value (render n) = n := by
  rw [render]
  split
  case isTrue zero => rw [zero]; rfl
  · rw [value_map_character fun d among => Nat.digits_lt_base (by decide) among,
      Nat.ofDigits_digits]

end Decimal
