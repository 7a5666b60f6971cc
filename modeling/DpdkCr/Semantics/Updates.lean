import Mathlib.Data.List.Basic

/-!
# Independent updates

A list of updates run one after the other on one state. Each update establishes a
property of its own, and the updates are independent when none destroys the property
of another. Then the order does not matter: in the end every property holds.

## Main results

* `foldl_establishes` — independent updates establish all their properties
-/

namespace Semantics

variable {ι σ : Type*}

/-- The last run of an update is the one that counts: those after it are of others. -/
theorem foldl_establishes {P : ι → σ → Prop} (update : ι → σ → σ) (items : List ι)
    (s : σ)
    (own : ∀ item ∈ items, ∀ t, P item (update item t))
    (others : ∀ item ∈ items, ∀ other ∈ items, item ≠ other → ∀ t, P item t →
      P item (update other t)) :
    ∀ item ∈ items, P item (items.foldl (fun t item => update item t) s) := by
  induction items generalizing s with
  | nil => simp
  | cons first rest ih =>
      intro item member
      rw [List.foldl_cons]
      -- an update that runs again establishes its property anew, whatever came before
      by_cases again : item ∈ rest
      · exact ih (update first s) (fun one among => own one (List.mem_cons_of_mem _ among))
          (fun one among other member => others one (List.mem_cons_of_mem _ among) other
            (List.mem_cons_of_mem _ member)) item again
      · obtain rfl : item = first := (List.mem_cons.mp member).resolve_right again
        apply List.foldlRecOn (motive := P item) rest _ (own item member s)
        intro t holds other among
        have distinct : item ≠ other := fun same => again (same ▸ among)
        exact others item member other (List.mem_cons_of_mem _ among) distinct t holds

end Semantics
