import Dialect.Work.FanOut

/-!
# How work is handed out

Items are cut into shares of one size, the last of which may be smaller. There is no share without
items, the item at place `i` stands in share `i / size` (`getElem?_chunks`), and as the size is the
rounded quotient by the number of workers, there are no more shares than workers
(`length_shares_le`). So the answers to all shares, put together, are those to the items, each once
and in order.
-/

namespace Dialect.Work

universe u v

variable {α : Type u} {β : Type v}

/-! ## Chunks -/

/-- The number of chunks is that of the items divided by their size, rounded up. -/
theorem length_chunks (size : Nat) (items : List α) :
    (chunks size items).length = (items.length + size) / (size + 1) := by
  fun_induction chunks size items with
  | case1 =>
    show 0 = (0 + size) / (size + 1)
    rw [Nat.zero_add, Nat.div_eq_of_lt (Nat.lt_succ_self size)]
  | case2 a rest ih =>
    rw [List.length_cons, ih, List.length_drop, List.length_cons]
    by_cases hfull : size ≤ rest.length
    · -- one chunk is taken off in full
      rw [show rest.length + 1 + size = rest.length - size + size + (size + 1) by omega,
        Nat.add_div_right _ (Nat.succ_pos size)]
    · -- the first chunk is the last one
      rw [show rest.length + 1 + size = rest.length + (size + 1) by omega,
        Nat.add_div_right _ (Nat.succ_pos size), Nat.div_eq_of_lt (by omega),
        Nat.div_eq_of_lt (by omega)]

/-- A chunk has at least one item, and no more than its size. -/
theorem length_of_mem_chunks {size : Nat} {items chunk : List α} (h : chunk ∈ chunks size items) :
    chunk ≠ [] ∧ chunk.length ≤ size + 1 := by
  fun_induction chunks size items with
  | case1 => exact absurd h List.not_mem_nil
  | case2 a rest ih =>
    rcases List.mem_cons.mp h with rfl | h
    · refine ⟨List.cons_ne_nil _ _, ?_⟩
      rw [List.length_cons, List.length_take]
      omega
    · exact ih h

/-- Each item has its place in one of the chunks, by its place in the list. -/
theorem getElem?_chunks (size : Nat) (items : List α) (i : Nat) :
    items[i]? = (chunks size items)[i / (size + 1)]?.bind (·[i % (size + 1)]?) := by
  fun_induction chunks size items generalizing i with
  | case1 => rfl
  | case2 a rest ih =>
    by_cases hfirst : i < size + 1
    · rw [Nat.div_eq_of_lt hfirst, Nat.mod_eq_of_lt hfirst, List.getElem?_cons_zero,
        Option.bind_some, ← List.take_succ_cons, List.getElem?_take_of_lt hfirst]
    · rw [Nat.div_eq_sub_div (Nat.succ_pos size) (by omega), Nat.mod_eq_sub_mod (by omega),
        List.getElem?_cons_succ, ← ih, List.getElem?_drop]
      rw [show i = size + (i - (size + 1)) + 1 by omega, List.getElem?_cons_succ]
      congr 2
      omega

/-! ## Shares -/

variable {workers : Nat} {items : List α}

/-- There is always somebody to do the work. -/
theorem usefulWorkers_pos (workers items : Nat) : 0 < usefulWorkers workers items := by
  unfold usefulWorkers
  omega

/-- Where there are items, a worker has at least one of them to do. -/
theorem chunkSize_pos {count : Nat} (hworkers : 0 < workers) (hcount : 0 < count) :
    0 < chunkSize workers count := by
  unfold chunkSize
  exact Nat.div_pos (by omega) hworkers

/-- The workers together get all the items done. -/
theorem le_mul_chunkSize {count : Nat} (hworkers : 0 < workers) :
    count ≤ workers * chunkSize workers count := by
  unfold chunkSize
  have hrest := Nat.mod_lt (count + workers - 1) hworkers
  have hsplit := Nat.div_add_mod (count + workers - 1) workers
  omega

/-- Several workers are of use only where there are items for them. -/
theorem length_pos_of_usefulWorkers {count : Nat} (h : usefulWorkers workers count ≠ 1) :
    0 < count := by
  unfold usefulWorkers at h
  omega

/-- Shares are as large as the quotient says, which is never zero where something is shared out. -/
theorem shares_eq (workers : Nat) (h : 0 < items.length) :
    ∃ size, chunkSize (usefulWorkers workers items.length) items.length = size + 1 ∧
      shares workers items = chunks size items := by
  have hsize := chunkSize_pos (usefulWorkers_pos workers items.length) h
  exact ⟨_, (Nat.sub_add_cancel hsize).symm, rfl⟩

/-- No items, no shares. -/
theorem shares_nil : shares workers ([] : List α) = [] := by
  unfold shares chunks
  rfl

/-- There are no more shares than workers that have something to do. -/
theorem length_shares_le : (shares workers items).length ≤ usefulWorkers workers items.length := by
  rcases Nat.eq_zero_or_pos items.length with hnone | hsome
  · rw [List.length_eq_zero_iff.mp hnone, shares_nil]
    exact Nat.zero_le _
  · obtain ⟨size, hsize, hshares⟩ := shares_eq workers hsome
    have hall : items.length ≤ _ := le_mul_chunkSize (usefulWorkers_pos workers items.length)
    rw [hshares, length_chunks]
    apply Nat.le_of_lt_succ
    apply Nat.div_lt_of_lt_mul
    rw [hsize] at hall
    rw [Nat.mul_succ, Nat.mul_comm]
    omega

/-- **A fan-out is a map.** Whatever the number of workers is, the answers are those to the items,
each once and in order. The items are shared out one behind the other: the one at place `i` stands
in share `i / size`, at place `i % size`, where no share is without items and none has more than
`size`. There are no more shares than workers, and at most one for each item; one is enough for no
items, and for no workers. Where there are several workers, the size is not zero, and `fanOut` runs
just one task for each share, so that the number of shares is that of the tasks. -/
theorem fanOut_hands_out (workers : Nat) (f : α → β) (items : List α) :
    let useful := usefulWorkers workers items.length
    let size := chunkSize useful items.length
    fanOut workers f items = items.map f ∧
    (shares workers items).flatten = items ∧
    (∀ i, items[i]? = (shares workers items)[i / size]?.bind (·[i % size]?)) ∧
    (∀ share ∈ shares workers items, share ≠ [] ∧ share.length ≤ size) ∧
    (shares workers items).length ≤ max 1 (min workers (max items.length 1)) ∧
    (useful ≠ 1 → 0 < size) := by
  intro useful size
  have hplaces : (∀ i, items[i]? = (shares workers items)[i / size]?.bind (·[i % size]?)) ∧
      ∀ share ∈ shares workers items, share ≠ [] ∧ share.length ≤ size := by
    -- no items make no chunks, and otherwise the chunks have a size above zero
    rcases Nat.eq_zero_or_pos items.length with hnone | hsome
    · rw [List.length_eq_zero_iff.mp hnone, shares_nil]
      exact ⟨fun i => rfl, nofun⟩
    · obtain ⟨size', hsize, hshares⟩ := shares_eq workers hsome
      rw [hshares, show size = size' + 1 from hsize]
      exact ⟨getElem?_chunks size' items, fun share => length_of_mem_chunks⟩
  refine ⟨fanOut_eq_map workers f items, chunks_flatten _ items, hplaces.1, hplaces.2,
    length_shares_le, fun hseveral => ?_⟩
  apply chunkSize_pos
  · exact usefulWorkers_pos workers items.length
  · exact length_pos_of_usefulWorkers hseveral

/-- Nine items for seven workers: with two items each, five of the workers are enough. -/
theorem fanOut_hands_out_sample :
    fanOut 7 (· * 2) [1, 2, 3, 4, 5, 6, 7, 8, 9] = [2, 4, 6, 8, 10, 12, 14, 16, 18] ∧
      shares 7 [1, 2, 3, 4, 5, 6, 7, 8, 9] = [[1, 2], [3, 4], [5, 6], [7, 8], [9]] ∧
      [9] ≠ [] ∧ 0 < chunkSize (usefulWorkers 7 9) 9 := by
  obtain ⟨hmap, -, -, hshares, -, hsize⟩ :=
    fanOut_hands_out 7 (· * 2) [1, 2, 3, 4, 5, 6, 7, 8, 9]
  have hall : shares 7 [1, 2, 3, 4, 5, 6, 7, 8, 9] = [[1, 2], [3, 4], [5, 6], [7, 8], [9]] := by
    decide +kernel
  refine ⟨hmap, hall, (hshares [9] ?_).1, hsize (by decide)⟩
  rw [hall]
  simp

end Dialect.Work
