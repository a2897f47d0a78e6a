/-
A bounded queue that makes room by forgetting its oldest entries.

Both overwrite queues of the repository, the server's and the agent's, are this
queue underneath: a writer appends a whole batch, and when the batch does not fit
the entries at the front are given up so that the newest `cap` survive.  A reader
takes up to `n` entries from the front.

Nothing here knows about cursors or slots; it is the specification the two ring
buffers are shown to implement.  What the proofs use of it is how the two
operations move entries around: every entry that goes in comes out exactly once,
either through a read or as a dropped entry.
-/
import Mathlib

namespace Sophon.Fifo

variable {α : Type}

/-- Append a batch, then drop from the front what exceeds `cap`.  The second
component is what was dropped, oldest first. -/
def push (cap : Nat) (q xs : List α) : List α × List α :=
  ((q ++ xs).drop ((q ++ xs).length - cap), (q ++ xs).take ((q ++ xs).length - cap))

/-- Take up to `n` entries from the front.  The first component is what was read. -/
def pop (n : Nat) (q : List α) : List α × List α :=
  (q.take n, q.drop n)

@[simp] theorem push_kept (cap : Nat) (q xs : List α) :
    (push cap q xs).1 = (q ++ xs).drop ((q ++ xs).length - cap) := rfl

@[simp] theorem push_dropped (cap : Nat) (q xs : List α) :
    (push cap q xs).2 = (q ++ xs).take ((q ++ xs).length - cap) := rfl

@[simp] theorem pop_read (n : Nat) (q : List α) : (pop n q).1 = q.take n := rfl

@[simp] theorem pop_rest (n : Nat) (q : List α) : (pop n q).2 = q.drop n := rfl

/-- Nothing is lost or made up by a push: the dropped entries followed by the kept
ones are the old queue followed by the batch. -/
theorem push_conserve (cap : Nat) (q xs : List α) :
    (push cap q xs).2 ++ (push cap q xs).1 = q ++ xs := by
  simp

theorem pop_conserve (n : Nat) (q : List α) : (pop n q).1 ++ (pop n q).2 = q := by
  simp

/-- Both operations commute with renaming the entries. -/
theorem push_map {β : Type} (f : α → β) (cap : Nat) (q xs : List α) :
    push cap (q.map f) (xs.map f) = ((push cap q xs).1.map f, (push cap q xs).2.map f) := by
  simp [push, ← List.map_append, List.map_drop, List.map_take]

theorem pop_map {β : Type} (f : α → β) (n : Nat) (q : List α) :
    pop n (q.map f) = ((pop n q).1.map f, (pop n q).2.map f) := by
  simp [pop, List.map_drop, List.map_take]

/-- A batch no longer than the capacity only ever drops entries of the old queue. -/
theorem push_dropped_prefix {cap : Nat} {q xs : List α} (hxs : xs.length ≤ cap) :
    (push cap q xs).2 = q.take (q.length + xs.length - cap) := by
  simp only [push_dropped, List.length_append]
  rw [List.take_append_of_le_length (by omega)]

end Sophon.Fifo
