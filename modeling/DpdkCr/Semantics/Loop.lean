import Mathlib.Data.List.Range

/-!
# Counted loops

A loop whose bound is read once and whose counter runs from zero: `n.times`. Its
rule takes an invariant that mentions how many iterations are done. The iterations
may fail; then the loop does.

## Main results

* `times_induction` — an invariant of all iterations
* `timesOk_induction`, `timesOk_isOk` — an invariant of iterations that have not failed,
  and one with which they do not
* `timesOk_timesOk_induction`, `timesOk_timesOk_isOk` — the same for a loop of loops
* `forM_eq_ok` — checks in a row
-/

namespace Semantics

variable {σ : Type*} {body : ℕ → σ → σ} {n : ℕ} {s : σ}

/-- Run `body 0`, …, `body (n - 1)` in this order. -/
def times (n : ℕ) (body : ℕ → σ → σ) (s : σ) : σ := (List.range n).foldl (fun s i => body i s) s

@[simp] theorem times_succ : times (n + 1) body s = body n (times n body s) := by
  rw [times, List.range_succ, List.foldl_append]
  rfl

/-- An invariant that holds of no iterations and that each iteration takes one
further holds of all of them. -/
theorem times_induction {P : ℕ → σ → Prop} (start : P 0 s)
    (next : ∀ k < n, ∀ t, P k t → P (k + 1) (body k t)) : P n (times n body s) := by
  -- the bound of `next` stays `n` while the induction is on how far the loop has come
  have general (k : ℕ) (bound : k ≤ n) : P k (times k body s) := by
    induction k with
    | zero => exact start
    | succ k ih =>
        rw [times_succ]
        exact next k bound _ (ih (Nat.le_of_lt bound))
  exact general n le_rfl

/-! ### Iterations that may fail -/

section Fallible

variable {ε τ : Type*} {e : ε} {body : ℕ → σ → Except ε σ}

/-- Run `body 0`, …, `body (n - 1)` in this order, up to the first failure. -/
def timesOk (n : ℕ) (body : ℕ → σ → Except ε σ) (s : σ) : Except ε σ :=
  times n (fun i result => result.bind (body i)) (.ok s)

theorem timesOk_zero : timesOk 0 body s = .ok s := rfl

theorem timesOk_succ : timesOk (n + 1) body s = (timesOk n body s).bind (body n) := times_succ

theorem bind_eq_ok {result : Except ε σ} {next : σ → Except ε τ} {t : τ} :
    result.bind next = .ok t ↔ ∃ u, result = .ok u ∧ next u = .ok t := by
  cases result <;> simp [Except.bind]

theorem bind_ne_error {result : Except ε σ} {next : σ → Except ε τ} (first : result ≠ .error e)
    (second : ∀ u, result = .ok u → next u ≠ .error e) : result.bind next ≠ .error e := by
  cases result with
  | error other =>
      intro same
      exact first (congrArg Except.error (Except.error.inj same))
  | ok u => exact second u rfl

/-- An invariant of the iterations that do not fail. -/
theorem timesOk_induction {P : ℕ → σ → Prop} (start : P 0 s)
    (next : ∀ k < n, ∀ t u, P k t → body k t = .ok u → P (k + 1) u) {t : σ}
    (executed : timesOk n body s = .ok t) : P n t := by
  have general (k : ℕ) (bound : k ≤ n) : ∀ t, timesOk k body s = .ok t → P k t := by
    induction k with
    | zero =>
        rintro t ⟨⟩
        exact start
    | succ k ih =>
        intro t more
        obtain ⟨u, before, last⟩ := bind_eq_ok.mp (timesOk_succ ▸ more)
        exact next k bound u t (ih (Nat.le_of_lt bound) u before) last
  exact general n le_rfl t executed

/-- With an invariant under which no iteration fails, the loop does not. -/
theorem timesOk_isOk {P : ℕ → σ → Prop} (start : P 0 s)
    (next : ∀ k < n, ∀ t, P k t → ∃ u, body k t = .ok u ∧ P (k + 1) u) :
    ∃ t, timesOk n body s = .ok t ∧ P n t := by
  have general (k : ℕ) (bound : k ≤ n) : ∃ t, timesOk k body s = .ok t ∧ P k t := by
    induction k with
    | zero => exact ⟨s, timesOk_zero, start⟩
    | succ k ih =>
        obtain ⟨t, before, holds⟩ := ih (Nat.le_of_lt bound)
        obtain ⟨u, last, further⟩ := next k bound t holds
        exact ⟨u, timesOk_succ.trans (bind_eq_ok.mpr ⟨t, before, last⟩), further⟩
  exact general n le_rfl

section Nested

variable {m : ℕ} {body : ℕ → ℕ → σ → Except ε σ} {P : ℕ → ℕ → σ → Prop}

/-- In a loop of loops the invariant names how far both counters have come; at the end of a
row it has to hold for the start of the next one. -/
theorem timesOk_timesOk_induction (start : P 0 0 s)
    (next : ∀ k < n, ∀ l < m, ∀ t u, P k l t → body k l t = .ok u → P k (l + 1) u)
    (row : ∀ k t, P k m t → P (k + 1) 0 t) {t : σ}
    (executed : timesOk n (fun k => timesOk m (body k)) s = .ok t) : P n 0 t := by
  refine timesOk_induction (P := fun k => P k 0) start ?_ executed
  intro k bound t u before done
  exact row k u (timesOk_induction (P := P k) before (next k bound) done)

theorem timesOk_timesOk_isOk (start : P 0 0 s)
    (next : ∀ k < n, ∀ l < m, ∀ t, P k l t → ∃ u, body k l t = .ok u ∧ P k (l + 1) u)
    (row : ∀ k t, P k m t → P (k + 1) 0 t) :
    ∃ t, timesOk n (fun k => timesOk m (body k)) s = .ok t ∧ P n 0 t := by
  refine timesOk_isOk (P := fun k => P k 0) start ?_
  intro k bound t before
  obtain ⟨u, done, last⟩ := timesOk_isOk (P := P k) before (next k bound)
  exact ⟨u, done, row k u last⟩

end Nested

/-- The loop fails only as an iteration does. -/
theorem timesOk_ne_error (never : ∀ k < n, ∀ t, body k t ≠ .error e) :
    timesOk n body s ≠ .error e := by
  induction n with
  | zero =>
      intro same
      cases same
  | succ n ih =>
      rw [timesOk_succ]
      exact bind_ne_error (ih fun k bound => never k (Nat.lt_succ_of_lt bound))
        fun t _ => never n (Nat.lt_succ_self n) t

variable {α : Type*} {xs : List α} {check : α → Except ε Unit}

theorem forM_cons_eq {x : α} : (x :: xs).forM check = (check x).bind fun _ => xs.forM check := rfl

/-- Checks in a row succeed when all of them do. -/
theorem forM_eq_ok : xs.forM check = .ok () ↔ ∀ x ∈ xs, check x = .ok () := by
  induction xs with
  | nil => simp [List.forM, pure, Except.pure]
  | cons x xs ih =>
      rw [forM_cons_eq, bind_eq_ok, List.forall_mem_cons, ih]
      constructor
      · rintro ⟨⟨⟩, first, rest⟩
        exact ⟨first, rest⟩
      · rintro ⟨first, rest⟩
        exact ⟨(), first, rest⟩

theorem forM_ne_error (never : ∀ x ∈ xs, check x ≠ .error e) : xs.forM check ≠ .error e := by
  induction xs with
  | nil =>
      intro same
      cases same
  | cons x xs ih =>
      rw [forM_cons_eq]
      exact bind_ne_error (never x List.mem_cons_self)
        fun _ _ => ih fun y member => never y (List.mem_cons_of_mem x member)

end Fallible

end Semantics
