import Mathlib.Data.Nat.Notation

/-!
# Uncounted loops

A loop whose end is decided by its state: every pass either goes on in another
state or leaves the loop with a result. Passes are counted, so that a loop can
be run: with too little fuel there is no result. A pass that contains a loop of
its own has none either when that one does not come to its end.

## Main definitions

* `iterate` — run passes until one leaves the loop

## Main results

* `iterate_of_path` — a loop leaves at the end of a known path of states
-/

namespace Semantics

/-- What a pass through a loop leads to. -/
inductive Pass (σ ρ : Type*)
  | again (s : σ)
  | leave (result : ρ)

variable {σ ρ : Type*} {pass : σ → Option (Pass σ ρ)} {s t : σ} {result : ρ}

/-- Run at most `fuel` passes from the state `s`. -/
def iterate (pass : σ → Option (Pass σ ρ)) : ℕ → σ → Option ρ
  | 0, _ => none
  | fuel + 1, s =>
    match pass s with
    | none => none
    | some (.again t) => iterate pass fuel t
    | some (.leave result) => some result

theorem iterate_succ_again (step : pass s = some (.again t)) (fuel : ℕ) :
    iterate pass (fuel + 1) s = iterate pass fuel t := by
  simp only [iterate, step]

theorem iterate_succ_leave (step : pass s = some (.leave result)) (fuel : ℕ) :
    iterate pass (fuel + 1) s = some result := by
  simp only [iterate, step]

/-- A loop that passes through the states of a path and leaves at the end of it
takes one pass more than the path has steps. -/
theorem iterate_of_path (path : ℕ → σ) {n fuel : ℕ} (enough : n < fuel)
    (steps : ∀ k < n, pass (path k) = some (.again (path (k + 1))))
    (last : pass (path n) = some (.leave result)) : iterate pass fuel (path 0) = some result := by
  induction n generalizing path fuel with
  | zero =>
      obtain ⟨fuel, rfl⟩ := Nat.exists_eq_add_one.mpr enough
      exact iterate_succ_leave last fuel
  | succ n ih =>
      obtain ⟨fuel, rfl⟩ := Nat.exists_eq_add_one.mpr (Nat.zero_lt_of_lt enough)
      rw [iterate_succ_again (steps 0 n.succ_pos)]
      exact ih (fun k => path (k + 1)) (Nat.lt_of_succ_lt_succ enough)
        (fun k bound => steps (k + 1) (Nat.succ_lt_succ bound)) last

end Semantics
