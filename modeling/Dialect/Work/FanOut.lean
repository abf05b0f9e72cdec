/-!
# Bounded fan-out

A list worked through by several tasks: it is cut into at most as many chunks as there are workers,
each chunk is one task, and the answers come back in the order of the items.
-/

namespace Dialect.Work

/-- Cuts a list into chunks of `size + 1` items; the last may be shorter. -/
def chunks (size : Nat) : List α → List (List α)
  | [] => []
  | a :: rest => (a :: rest.take size) :: chunks size (rest.drop size)
termination_by items => items.length
decreasing_by simp only [List.length_drop, List.length_cons]; omega

/-- The number of workers that have something to do: at least one, at most one for each item. -/
def usefulWorkers (workers items : Nat) : Nat := max 1 (min workers (max items 1))

/-- The number of items for each worker, rounded up. -/
def chunkSize (workers items : Nat) : Nat := (items + workers - 1) / workers

/-- The chunks that are handed out to the workers. -/
def shares (workers : Nat) (items : List α) : List (List α) :=
  chunks (chunkSize (usefulWorkers workers items.length) items.length - 1) items

/-- Applies `f` to every item. A single worker needs no task of its own. -/
def fanOut (workers : Nat) (f : α → β) (items : List α) : List β :=
  if usefulWorkers workers items.length = 1 then items.map f
  else
    let tasks := (shares workers items).map fun share => Task.spawn fun _ => share.map f
    tasks.flatMap Task.get

/-- The number of workers when none is asked for. -/
def defaultWorkers : Nat := 4

/-! ## Chunks put together -/

/-- Chunks put together are the list that was cut. -/
theorem chunks_flatten (size : Nat) (items : List α) : (chunks size items).flatten = items := by
  fun_induction chunks size items with
  | case1 => rfl
  | case2 a rest ih => simp [ih]

/-- Working in parallel gives what working through the list gives. -/
theorem fanOut_eq_map (workers : Nat) (f : α → β) (items : List α) :
    fanOut workers f items = items.map f := by
  unfold fanOut
  split
  · rfl
  · conv => rhs; rw [← chunks_flatten
      (chunkSize (usefulWorkers workers items.length) items.length - 1) items]
    simp [shares, Task.spawn, List.map_flatten, List.flatMap_def, Function.comp_def]

end Dialect.Work
