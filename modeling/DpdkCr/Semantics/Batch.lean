import DpdkCr.Semantics.Transition

/-!
# Batches

What a bounded buffer in front of a consumer is for: elements wait, and before
the buffer is full all of them are offered at once. The consumer
takes a prefix of the offer and rejects the rest. A batch carries as fields that
it is not full and that what has been passed to it is, in order, what the
offers disposed of and what still waits.

## Main definitions

* `Batch` — the waiting elements and what became of the others
* `Batch.system` — keeping and offering, with any prefix taken at each offer
-/

namespace Semantics

/-- What became of one offer. -/
structure Outcome (α : Type*) where
  taken : List α
  rejected : List α

/-- A buffer of fewer than `size` elements with its history. -/
structure Batch (α : Type*) where
  size : ℕ
  passed : List α
  outcomes : List (Outcome α)
  pending : List α
  below : pending.length < size
  conserved : passed = (outcomes.flatMap fun o => o.taken ++ o.rejected) ++ pending

namespace Batch

variable {α : Type*}

def empty (size : ℕ) (positive : 0 < size) : Batch α := ⟨size, [], [], [], positive, rfl⟩

/-- One more element waits. -/
def keep (b : Batch α) (x : α) (room : b.pending.length + 1 < b.size) : Batch α where
  size := b.size
  passed := b.passed ++ [x]
  outcomes := b.outcomes
  pending := b.pending ++ [x]
  below := by rwa [List.length_append, List.length_singleton]
  conserved := by rw [b.conserved, List.append_assoc]

/-- Everything that waits and the elements `xs` are offered, and `k` are taken. -/
def offer (b : Batch α) (xs : List α) (k : ℕ) : Batch α where
  size := b.size
  passed := b.passed ++ xs
  outcomes := b.outcomes ++ [⟨(b.pending ++ xs).take k, (b.pending ++ xs).drop k⟩]
  pending := []
  below := (Nat.zero_le _).trans_lt b.below
  conserved := by
    rw [List.flatMap_append, List.flatMap_singleton, List.take_append_drop, List.append_nil,
      ← List.append_assoc, ← b.conserved]

/-- The events of a batch. -/
inductive Event (α : Type*)
  | keep (x : α)
  | offer (xs : List α) (k : ℕ)

/-- The batch as a system: an offer may come at any time, and must come before the
buffer is full. -/
def system : System (Batch α) (Event α) where
  Init b := b.passed = [] ∧ b.outcomes = []
  exec b
    | .keep x => if room : b.pending.length + 1 < b.size then some (b.keep x room) else none
    | .offer xs k => some (b.offer xs k)

theorem exec_keep {b : Batch α} {x : α} (room : b.pending.length + 1 < b.size) :
    system.exec b (.keep x) = some (b.keep x room) :=
  dif_pos room

end Batch

end Semantics
