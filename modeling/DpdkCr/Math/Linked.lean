import Mathlib.Algebra.BigOperators.Group.Finset.Piecewise
import Mathlib.Data.List.Nodup
import Mathlib.Logic.Function.Basic

/-!
# Lists that are linked by pointers

The elements that a chain of pointers passes through, with the pointers as a function.
The chain from a pointer is unique and visits nothing twice, so it is not affected by
what happens to the pointers of other elements.

How many elements of a finite set a function takes to a value changes with the function
by what the changed element contributes.

## Main definitions

* `Linked` — the chain from a pointer to the end
* `walk` — the chain, for as long as there is fuel
* `LinkedTo` — a chain that is being built

## Main results

* `Linked.unique`, `Linked.nodup` — chains are unique and without repetition
* `Linked.append` — a chain behind another
* `LinkedTo.push`, `LinkedTo.linked` — building a chain from its first element on
* `card_filter_update` — fibres of a function that changes at one place
-/

variable {α β : Type*}

/-- The chain from the pointer `p` consists of the elements of the list. -/
def Linked (next : α → Option α) : Option α → List α → Prop
  | p, [] => p = none
  | p, a :: rest => p = some a ∧ Linked next (next a) rest

/-- Follow at most `fuel` pointers. -/
def walk (next : α → Option α) : ℕ → Option α → List α
  | 0, _ => []
  | _ + 1, none => []
  | fuel + 1, some a => a :: walk next fuel (next a)

namespace Linked

variable {next next' : α → Option α} {p q : Option α} {a : α} {as bs front rest : List α}

@[simp] theorem nil_iff : Linked next p [] ↔ p = none := Iff.rfl

@[simp] theorem cons_iff :
    Linked next p (a :: rest) ↔ p = some a ∧ Linked next (next a) rest := Iff.rfl

theorem unique (chain : Linked next p as) (other : Linked next p bs) : as = bs := by
  induction as generalizing p bs with
  | nil =>
      cases bs with
      | nil => rfl
      | cons b bs => exact absurd (chain.symm.trans other.1) nofun
  | cons a as ih =>
      cases bs with
      | nil => exact absurd (other.symm.trans chain.1) nofun
      | cons b bs =>
          obtain rfl := Option.some.inj (chain.1.symm.trans other.1)
          rw [ih chain.2 other.2]

/-- The chain from any of its elements is the rest of it. -/
theorem suffix (chain : Linked next p (front ++ a :: rest)) : Linked next (next a) rest := by
  induction front generalizing p with
  | nil => exact chain.2
  | cons b front ih => exact ih chain.2

theorem nodup (chain : Linked next p as) : as.Nodup := by
  induction as generalizing p with
  | nil => exact List.nodup_nil
  | cons a as ih =>
      refine List.nodup_cons.mpr ⟨fun again => ?_, ih chain.2⟩
      -- behind the repetition the chain would have to be as long as from here on
      obtain ⟨front, rest, rfl⟩ := List.append_of_mem again
      have shorter := congrArg List.length (chain.2.unique chain.2.suffix)
      rw [List.length_append, List.length_cons] at shorter
      omega

theorem congr (chain : Linked next p as) (same : ∀ a ∈ as, next' a = next a) :
    Linked next' p as := by
  induction as generalizing p with
  | nil => exact chain
  | cons a as ih =>
      rw [List.forall_mem_cons] at same
      exact ⟨chain.1, same.1 ▸ ih chain.2 same.2⟩

/-- A chain goes on with another when its last element is linked to that. -/
theorem append (chain : Linked next p (front ++ [a])) (same : ∀ b ∈ front, next' b = next b)
    (goesOn : Linked next' (next' a) bs) : Linked next' p (front ++ a :: bs) := by
  induction front generalizing p with
  | nil => exact ⟨chain.1, goesOn⟩
  | cons b front ih =>
      rw [List.forall_mem_cons] at same
      exact ⟨chain.1, same.1 ▸ ih chain.2 same.2⟩

theorem head_eq (chain : Linked next (some a) as) : ∃ rest, as = a :: rest := by
  cases as with
  | nil => exact absurd chain nofun
  | cons b rest => exact ⟨rest, by rw [Option.some.inj chain.1]⟩

/-- Enough fuel walks the whole chain. -/
theorem walk_eq (chain : Linked next p as) {fuel : ℕ} (enough : as.length ≤ fuel) :
    walk next fuel p = as := by
  induction as generalizing p fuel with
  | nil =>
      cases chain
      cases fuel <;> rfl
  | cons a as ih =>
      obtain ⟨rfl, chain⟩ := chain
      obtain ⟨fuel, rfl⟩ := Nat.exists_eq_add_of_lt enough
      rw [walk, ih chain (Nat.le_add_right _ _)]

end Linked

/-! ### Chains that are being built -/

/-- A chain up to its last element, wherever that one points to. -/
def LinkedTo [DecidableEq α] (next : α → Option α) (p : Option α) (as : List α) (last : α) : Prop :=
  ∃ front, as = front ++ [last] ∧ Linked (Function.update next last none) p as

namespace LinkedTo

variable [DecidableEq α] {next next' : α → Option α} {p : Option α} {a b last : α} {as : List α}

theorem singleton : LinkedTo next (some a) [a] a :=
  ⟨[], rfl, rfl, Function.update_self ..⟩

theorem mem (chain : LinkedTo next p as last) : last ∈ as := by
  obtain ⟨front, rfl, -⟩ := chain
  exact List.mem_append_right front List.mem_cons_self

/-- The chain goes on with an element that the last one is made to point to. -/
theorem push (chain : LinkedTo next p as last) (same : ∀ a ∈ as, a ≠ last → next' a = next a)
    (link : next' last = some b) (new : b ∉ as) : LinkedTo next' p (as ++ [b]) b := by
  have away : last ≠ b := fun equal => new (equal ▸ chain.mem)
  obtain ⟨front, rfl, linked⟩ := chain
  refine ⟨front ++ [last], rfl, ?_⟩
  rw [List.append_assoc]
  refine linked.append (fun a member => ?_) ?_
  · have other : a ≠ last := by
      rintro rfl
      exact List.disjoint_of_nodup_append linked.nodup member List.mem_cons_self
    have kept : a ∈ front ++ [last] := List.mem_append_left _ member
    rw [Function.update_of_ne other, Function.update_of_ne fun equal : a = b => new (equal ▸ kept),
      same a kept other]
  · rw [Function.update_of_ne away, link]
    exact ⟨rfl, Function.update_self ..⟩

/-- The chain is complete when the last element points nowhere. -/
theorem linked (chain : LinkedTo next p as last)
    (same : ∀ a ∈ as, a ≠ last → next' a = next a) (stop : next' last = none) :
    Linked next' p as := by
  obtain ⟨front, rfl, linked⟩ := chain
  refine linked.congr fun a member => ?_
  by_cases this : a = last
  · rw [this, stop, Function.update_self]
  · rw [Function.update_of_ne this, same a member this]

end LinkedTo

/-- The size of a fibre changes by what the one changed element contributes to it. -/
theorem card_filter_update [DecidableEq α] [DecidableEq β] {s : Finset α} {f g : α → β} {a : α}
    (member : a ∈ s) (elsewhere : ∀ i, i ≠ a → g i = f i) (b : β) :
    {i ∈ s | g i = b}.card + (if f a = b then 1 else 0) =
      {i ∈ s | f i = b}.card + (if g a = b then 1 else 0) := by
  have others : ∑ i ∈ s.erase a, (if g i = b then 1 else 0) =
      ∑ i ∈ s.erase a, (if f i = b then 1 else 0) :=
    Finset.sum_congr rfl fun i kept => by rw [elsewhere i (Finset.ne_of_mem_erase kept)]
  rw [Finset.card_filter, Finset.card_filter, ← Finset.add_sum_erase s _ member,
    ← Finset.add_sum_erase s (fun i => if f i = b then 1 else 0) member, others]
  omega
