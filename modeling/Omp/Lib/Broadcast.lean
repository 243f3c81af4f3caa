import Mathlib.Data.List.Basic

/-!
# Channels that keep the last values

A broadcast channel keeps the last values that were sent, up to a capacity.  A receiver has a
position, that of the value it is to receive next.  A receiver whose value is no longer kept is told
how many it missed, and goes on with the oldest that is.

## Main definitions

* `Broadcast.Channel`, `Channel.send`, `Channel.recv` : the channel.
* `Channel.unread` : what a receiver at a position has before it.
* `Channel.Holds` : the values that were sent on a channel.

## Main results

* `Channel.Holds.recv` : a receiver that keeps up receives the next value, or none if there is none.
* `Channel.Holds.unread` : what it has before it are the values that were sent since.
-/

namespace Lib.Broadcast

variable {α : Type}

/-- The values a channel keeps, the oldest first, and how many were sent. -/
structure Channel (α : Type) where
  ring : List α
  tail : Nat

/-- What a receiver is told. -/
inductive Received (α : Type) where
  | value (a : α)
  | lagged (missed : Nat)
  | empty

/-- The value that was received, if one was. -/
def Received.line : Received α → List α
  | value a => [a]
  | lagged _ | empty => []

namespace Channel

/-- A new channel. -/
def new : Channel α := ⟨[], 0⟩

/-- Send a value, on a channel of a capacity. -/
def send (capacity : Nat) (c : Channel α) (a : α) : Channel α :=
  let ring := c.ring ++ [a]
  ⟨ring.drop (ring.length - capacity), c.tail + 1⟩

/-- What a receiver at a position has before it and the channel keeps. -/
def unread (c : Channel α) (next : Nat) : List α := c.ring.drop (c.ring.length - (c.tail - next))

/-- What a receiver at a position receives, and its position afterwards. -/
def recv (c : Channel α) (next : Nat) : Received α × Nat :=
  if c.ring.length < c.tail - next then
    (.lagged (c.tail - c.ring.length - next), c.tail - c.ring.length)
  else match (c.unread next).head? with
    | none => (.empty, next)
    | some a => (.value a, next + 1)

/-- The values that were sent on a channel of a capacity. -/
structure Holds (capacity : Nat) (c : Channel α) (sent : List α) : Prop where
  tail : c.tail = sent.length
  ring : c.ring = sent.drop (sent.length - capacity)

variable {capacity : Nat} {c : Channel α} {sent : List α}

theorem Holds.new (capacity : Nat) : Holds capacity (new : Channel α) [] :=
  ⟨rfl, List.drop_nil.symm⟩

/-- Sending a value. -/
theorem Holds.send (h : Holds capacity c sent) (a : α) :
    Holds capacity (c.send capacity a) (sent ++ [a]) := by
  refine ⟨by rw [List.length_append, ← h.tail]; rfl, ?_⟩
  unfold Channel.send
  dsimp only
  rw [h.ring, List.length_append, List.length_drop, List.length_append, List.length_singleton]
  rw [← List.drop_append_of_le_length (by omega), List.drop_drop]
  exact congrArg (List.drop · _) (by omega)

/-- **What a receiver has before it**, if it is not further behind than the channel keeps. -/
theorem Holds.unread (h : Holds capacity c sent) {next : Nat} (hnext : next ≤ sent.length)
    (hkeep : sent.length - next ≤ capacity) : c.unread next = sent.drop next := by
  unfold Channel.unread
  rw [h.tail, h.ring, List.length_drop, List.drop_drop]
  exact congrArg (List.drop · _) (by omega)

/-- **What a receiver receives** that keeps up. -/
theorem Holds.recv (h : Holds capacity c sent) {next : Nat} (hnext : next ≤ sent.length)
    (hkeep : sent.length - next ≤ capacity) : ∃ r, c.recv next = (r, next + r.line.length) ∧
      (∀ n, r ≠ .lagged n) ∧ sent.drop next = r.line ++ sent.drop (next + r.line.length) := by
  unfold Channel.recv
  rw [if_neg, h.unread hnext hkeep]
  · cases hdrop : sent.drop next with
    | nil => exact ⟨.empty, rfl, nofun, hdrop.symm⟩
    | cons a rest =>
      refine ⟨.value a, rfl, nofun, ?_⟩
      have htail := congrArg List.tail hdrop
      rw [List.tail_drop] at htail
      exact congrArg (List.cons a) htail.symm
  · rw [h.tail, h.ring, List.length_drop]
    omega

end Channel

end Lib.Broadcast
