import Mathlib.Data.Set.Basic
import Mathlib.Data.List.Basic

/-!
# Executable transition systems

A system is a set of initial states and a partial step function: a label names
one action of one party together with everything the environment chooses for
it, and is refused in states where the action is not enabled. Runs are label
lists, so an interleaving of several parties is a run and can be evaluated.

## Main definitions

* `System.run` — execute a list of labels
* `System.Reachable` — the states that runs from an initial state lead to
* `System.Simulation` — one step of a system as a run of a more abstract one
* `System.withHistory` — a system whose steps are recorded

## Main results

* `run_invariant`, `Reachable.invariant` — invariants of runs and of reachable states
* `run_relates` — what holds between the ends of a run with restricted labels
* `Simulation.reachable` — a simulated system reaches only related states
* `reachable_withHistory` — recording steps does not restrict them
-/

namespace Semantics

/-- Initial states and a partial, deterministic step function on labels. -/
structure System (σ ℓ : Type*) where
  Init : σ → Prop
  exec : σ → ℓ → Option σ

namespace System

variable {σ τ ℓ κ : Type*} {M : System σ ℓ} {N : System τ κ}
variable {s t u : σ} {a : ℓ} {w v : List ℓ}

/-- Execute labels left to right. -/
def run (M : System σ ℓ) : σ → List ℓ → Option σ
  | s, [] => some s
  | s, a :: w => (M.exec s a).bind fun t => run M t w

@[simp] theorem run_nil : M.run s [] = some s := rfl

theorem run_cons_eq_some :
    M.run s (a :: w) = some u ↔ ∃ t, M.exec s a = some t ∧ M.run t w = some u :=
  Option.bind_eq_some_iff

theorem run_append (M : System σ ℓ) (s : σ) (w v : List ℓ) :
    M.run s (w ++ v) = (M.run s w).bind fun t => M.run t v := by
  induction w generalizing s with
  | nil => rfl
  | cons a w ih =>
      rw [List.cons_append, run, run, Option.bind_assoc]
      exact congrArg _ (funext fun t => ih t)

theorem run_append_singleton (first : M.run s w = some t) (last : M.exec t a = some u) :
    M.run s (w ++ [a]) = some u := by
  rw [run_append, first, Option.bind_some, run, last, Option.bind_some, run]

/-- A property that every step keeps holds at the end of a run. -/
theorem run_invariant {P : σ → Prop} (kept : ∀ s a t, P s → M.exec s a = some t → P t)
    (executed : M.run s w = some t) (start : P s) : P t := by
  induction w generalizing s with
  | nil =>
      rw [run_nil, Option.some_inj] at executed
      exact executed ▸ start
  | cons a w ih =>
      obtain ⟨next, step, rest⟩ := run_cons_eq_some.mp executed
      exact ih rest (kept s a next start step)

/-- A reflexive relation that every allowed step extends holds between the ends
of a run of allowed labels. -/
theorem run_relates {R : σ → σ → Prop} {P : ℓ → Prop} (reflexive : R s s)
    (extended : ∀ t a u, R s t → P a → M.exec t a = some u → R s u)
    (allowed : ∀ a ∈ w, P a) (executed : M.run s w = some t) : R s t := by
  -- the relation is to the start of the whole run, so only the state reached is generalised
  have general (w : List ℓ) : ∀ m, R s m → (∀ a ∈ w, P a) → M.run m w = some t → R s t := by
    induction w with
    | nil =>
        intro m related _ done
        rw [run_nil, Option.some_inj] at done
        exact done ▸ related
    | cons a w ih =>
        intro m related permitted done
        obtain ⟨next, step, rest⟩ := run_cons_eq_some.mp done
        exact ih next (extended m a next related (permitted a List.mem_cons_self) step)
          (fun b member => permitted b (List.mem_cons_of_mem a member)) rest
  exact general w s reflexive allowed executed

/-- States that some run from an initial state leads to. -/
def Reachable (M : System σ ℓ) (t : σ) : Prop := ∃ s w, M.Init s ∧ M.run s w = some t

theorem Reachable.init (initial : M.Init s) : M.Reachable s := ⟨s, [], initial, rfl⟩

theorem Reachable.step (reached : M.Reachable s) (step : M.exec s a = some t) :
    M.Reachable t := by
  obtain ⟨start, w, initial, executed⟩ := reached
  exact ⟨start, w ++ [a], initial, run_append_singleton executed step⟩

theorem Reachable.run (reached : M.Reachable s) (executed : M.run s w = some t) :
    M.Reachable t :=
  run_invariant (fun _ _ _ before step => before.step step) executed reached

/-- A property of the initial states that every step keeps holds wherever the
system gets. -/
theorem Reachable.invariant {P : σ → Prop} (base : ∀ s, M.Init s → P s)
    (kept : ∀ s a t, P s → M.exec s a = some t → P t) (reached : M.Reachable t) : P t := by
  obtain ⟨s, w, initial, executed⟩ := reached
  exact run_invariant kept executed (base s initial)

/-- Every step of `M` from a related state is matched by a run of `N`. -/
structure Simulation (M : System σ ℓ) (N : System τ κ) where
  Rel : σ → τ → Prop
  init : ∀ s, M.Init s → ∃ t, N.Init t ∧ Rel s t
  step : ∀ s a s' t, Rel s t → M.exec s a = some s' → ∃ w t', N.run t w = some t' ∧ Rel s' t'

/-- A reachable state is related to a reachable abstract state. -/
theorem Simulation.reachable (simulation : Simulation M N) (reached : M.Reachable s) :
    ∃ t, N.Reachable t ∧ simulation.Rel s t := by
  refine reached.invariant (P := fun s => ∃ t, N.Reachable t ∧ simulation.Rel s t) ?_ ?_
  · intro s initial
    obtain ⟨t, abstract, related⟩ := simulation.init s initial
    exact ⟨t, Reachable.init abstract, related⟩
  · rintro s a s' ⟨t, there, related⟩ step
    obtain ⟨w, t', executed, next⟩ := simulation.step s a s' t related step
    exact ⟨t', there.run executed, next⟩

/-! ### History variables -/

section History

variable {η : Type*} {start h : η} {record : σ → ℓ → η → η}

/-- Record in a history what the steps do, as a function of the states that they are
taken in. -/
def withHistory (M : System σ ℓ) (start : η) (record : σ → ℓ → η → η) : System (σ × η) ℓ where
  Init s := M.Init s.1 ∧ s.2 = start
  exec s a := (M.exec s.1 a).map fun t => (t, record s.1 a s.2)

theorem exec_withHistory (step : M.exec s a = some t) :
    (M.withHistory start record).exec (s, h) a = some (t, record s a h) :=
  congrArg (Option.map _) step

/-- The states that are reached with a history are the reachable ones. -/
theorem reachable_withHistory :
    (∃ h, (M.withHistory start record).Reachable (s, h)) ↔ M.Reachable s := by
  constructor
  · rintro ⟨h, reached⟩
    refine reached.invariant (P := fun s => M.Reachable s.1) ?_ ?_
    · intro s initial
      exact .init initial.1
    · intro s a t there step
      obtain ⟨next, taken, rfl⟩ := Option.map_eq_some_iff.mp step
      exact there.step taken
  · intro reached
    refine reached.invariant
      (P := fun s => ∃ h, (M.withHistory start record).Reachable (s, h)) ?_ ?_
    · intro s initial
      exact ⟨start, .init ⟨initial, rfl⟩⟩
    · rintro s a t ⟨h, there⟩ step
      exact ⟨record s a h, there.step (exec_withHistory step)⟩

end History

end System

end Semantics
