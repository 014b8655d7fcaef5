import Mathlib.Data.List.Basic

/-! # Bounded queues

A queue of at most `capacity` values, oldest first. -/

namespace Ylos.BoundedQueue

variable {α : Type}

inductive Call (α : Type) where
  | put (a : α)
  | get

/-- A value comes behind the newest; in a full queue the oldest one goes for it. -/
def put (capacity : ℕ) (q : List α) (a : α) : List α :=
  if q.length = capacity then q.tail ++ [a] else q ++ [a]

/-- What calls return, one value for each `get`, and leave. No call gets a value from an
empty queue. -/
def run (capacity : ℕ) : List (Call α) → List α → Option (List α × List α)
  | [], q => some ([], q)
  | .put a :: calls, q => run capacity calls (put capacity q a)
  | .get :: _, [] => none
  | .get :: calls, a :: q => (run capacity calls q).map fun r => (a :: r.1, r.2)

variable {capacity : ℕ} {calls : List (Call α)} {q : List α} {a : α}

theorem put_full (h : (a :: q).length = capacity) (b : α) : put capacity (a :: q) b = q ++ [b] :=
  if_pos h

theorem put_room (h : q.length ≠ capacity) (b : α) : put capacity q b = q ++ [b] := if_neg h

theorem run_get_eq_some {r : List α × List α} (h : run capacity (.get :: calls) q = some r) :
    ∃ a rest out, q = a :: rest ∧ run capacity calls rest = some (out, r.2) ∧ r.1 = a :: out := by
  cases q with
  | nil => cases h
  | cons a rest =>
      obtain ⟨⟨out, q'⟩, hrun, rfl⟩ := Option.map_eq_some_iff.mp h
      exact ⟨a, rest, out, rfl, hrun, rfl⟩

end Ylos.BoundedQueue
