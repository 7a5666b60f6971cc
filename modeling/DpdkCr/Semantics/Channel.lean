import DpdkCr.Semantics.Transition

/-!
# First-in first-out channels

What a queue between two parties is for, with no storage and no capacity: the
elements received so far are a prefix of those sent so far. A channel carries
that fact as a field, so a lossy, duplicating or reordering channel state
cannot be built.
-/

namespace Semantics

/-- Everything sent and everything received, in order. -/
structure Channel (α : Type*) where
  sent : List α
  received : List α
  inOrder : received <+: sent

namespace Channel

variable {α : Type*}

def empty : Channel α := ⟨[], [], List.nil_prefix⟩

/-- What is sent and not yet received. -/
def pending (c : Channel α) : List α := c.sent.drop c.received.length

def send (c : Channel α) (xs : List α) : Channel α where
  sent := c.sent ++ xs
  received := c.received
  inOrder := c.inOrder.trans (List.prefix_append _ _)

/-- Receive the next `n` pending elements, or as many as there are. -/
def receive (c : Channel α) (n : ℕ) : Channel α where
  sent := c.sent
  received := c.sent.take (c.received.length + n)
  inOrder := List.take_prefix _ _

/-- The events of a channel. -/
inductive Event (α : Type*)
  | send (xs : List α)
  | receive (n : ℕ)

/-- The channel as a system: nothing is ever refused. -/
def system : System (Channel α) (Event α) where
  Init c := c = empty
  exec c
    | .send xs => some (c.send xs)
    | .receive n => some (c.receive n)

@[simp] theorem sent_send (c : Channel α) (xs : List α) : (c.send xs).sent = c.sent ++ xs := rfl

/-- Receiving appends exactly the first pending elements. -/
theorem received_receive (c : Channel α) (n : ℕ) :
    (c.receive n).received = c.received ++ c.pending.take n := by
  have first := List.prefix_iff_eq_take.mp c.inOrder
  calc (c.receive n).received
      = c.sent.take c.received.length ++ c.pending.take n := List.take_add ..
    _ = c.received ++ c.pending.take n := by rw [← first]

end Channel

end Semantics
