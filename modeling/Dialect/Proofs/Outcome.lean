import Mathlib.Data.List.Forall2

/-!
# Outcomes

When a computation that may fail succeeds, and what it fails with. Proofs about such computations
take them apart with these statements and do not unfold the monad.
-/

namespace Dialect

variable {ε ε' α β : Type}

/-- A computation that only answers does not fail. -/
theorem pure_ne_error {a : α} {e : ε} : (pure a : Except ε α) ≠ .error e := by
  simp [pure, Except.pure]

/-- Two computations in a row succeed exactly if both do. -/
theorem bind_eq_ok_iff {x : Except ε α} {f : α → Except ε β} {b : β} :
    x >>= f = .ok b ↔ ∃ a, x = .ok a ∧ f a = .ok b := by
  cases x with
  | error e => simp [bind, Except.bind]
  | ok a => simp [bind, Except.bind]

/-- Two computations in a row fail as the first that does. -/
theorem bind_eq_error_iff {x : Except ε α} {f : α → Except ε β} {e : ε} :
    x >>= f = .error e ↔ x = .error e ∨ ∃ a, x = .ok a ∧ f a = .error e := by
  cases x with
  | error e' => simp [bind, Except.bind]
  | ok a => simp [bind, Except.bind]

/-- Working on an answer does not fail. -/
theorem bind_pure_eq_error_iff {x : Except ε α} {f : α → β} {e : ε} :
    (x >>= fun a => pure (f a)) = .error e ↔ x = .error e := by
  rw [bind_eq_error_iff, or_iff_left]
  rintro ⟨_, -, h⟩
  exact pure_ne_error h

/-- A computation that never fails has an answer. -/
theorem exists_eq_ok_iff {x : Except ε α} : (∃ a, x = .ok a) ↔ ∀ e, x ≠ .error e := by
  cases x with
  | error e => simp
  | ok a => simp

/-- Changing an answer does not change whether there is one. -/
theorem map_eq_ok_iff {f : α → β} {x : Except ε α} {b : β} :
    x.map f = .ok b ↔ ∃ a, x = .ok a ∧ f a = b := by
  cases x with
  | error e => simp [Except.map]
  | ok a => simp [Except.map]

/-- Going on with an answer does not touch a fault. -/
theorem map_eq_error_iff {f : α → β} {x : Except ε α} {e : ε} :
    x.map f = .error e ↔ x = .error e := by
  cases x with
  | error e' => simp [Except.map]
  | ok a => simp [Except.map]

/-- Changing a fault does not touch answers. -/
theorem mapError_eq_ok_iff {f : ε → ε'} {x : Except ε α} {a : α} :
    x.mapError f = .ok a ↔ x = .ok a := by
  cases x with
  | error e => simp [Except.mapError]
  | ok a => simp [Except.mapError]

/-- Wording a fault anew makes no new faults. -/
theorem mapError_eq_error_iff {f : ε → ε'} {x : Except ε α} {e : ε'} :
    x.mapError f = .error e ↔ ∃ e', x = .error e' ∧ f e' = e := by
  cases x with
  | error e' => simp [Except.mapError]
  | ok a => simp [Except.mapError]

/-- A result whose answer is known is what is left, with the answer. -/
theorem eq_mk_of_snd_eq {p : α × β} {b : β} (h : p.2 = b) : p = (p.1, b) := by rw [← h]

/-! ## Member by member -/

section Members

variable {R S : α → β → Prop} {xs : List α} {ys : List β}

/-- Each member of the second list belongs to a member of the first. -/
theorem exists_of_forall₂_mem (h : List.Forall₂ R xs ys) {y : β} (hy : y ∈ ys) :
    ∃ x ∈ xs, R x y := by
  induction h with
  | nil => exact absurd hy List.not_mem_nil
  | @cons x z xs ys hxz _ ih =>
    rcases List.mem_cons.mp hy with rfl | hy
    · exact ⟨x, List.mem_cons_self, hxz⟩
    · obtain ⟨x', hx', hR⟩ := ih hy
      exact ⟨x', List.mem_cons_of_mem x hx', hR⟩

/-- If each member of a list has something that belongs to it, there is a list of such things. -/
theorem exists_forall₂ (h : ∀ x ∈ xs, ∃ y, R x y) : ∃ ys, List.Forall₂ R xs ys := by
  induction xs with
  | nil => exact ⟨[], .nil⟩
  | cons x xs ih =>
    obtain ⟨⟨y, hy⟩, hrest⟩ := List.forall_mem_cons.mp h
    obtain ⟨ys, hys⟩ := ih hrest
    exact ⟨y :: ys, .cons hy hys⟩

/-- What follows for members of the first list follows for the lists. -/
theorem forall₂_of_mem (h : List.Forall₂ R xs ys) (himp : ∀ x ∈ xs, ∀ y, R x y → S x y) :
    List.Forall₂ S xs ys := by
  induction h with
  | nil => exact .nil
  | @cons x y xs ys hxy _ ih =>
    refine .cons (himp x List.mem_cons_self y hxy) (ih fun x' hx' => ?_)
    exact himp x' (List.mem_cons_of_mem x hx')

/-- Where the second list has a member with some in front and some behind, so has the first. -/
theorem exists_of_forall₂_append_cons {front back : List β} {y : β}
    (h : List.Forall₂ R xs (front ++ y :: back)) :
    ∃ xfront x xback, xs = xfront ++ x :: xback ∧ List.Forall₂ R xfront front ∧ R x y ∧
      List.Forall₂ R xback back := by
  obtain ⟨x, xback, hx, hback, hdrop⟩ :=
    List.forall₂_cons_right_iff.mp (List.forall₂_drop_append xs front (y :: back) h)
  refine ⟨xs.take front.length, x, xback, ?_, List.forall₂_take_append xs front _ h, hx, hback⟩
  rw [← hdrop, List.take_append_drop]

/-- What is chosen from a list stands in the order of the members that it is chosen from. -/
theorem exists_of_filterMap_eq {f : α → Option β} {front back : List β} {y : β}
    (h : xs.filterMap f = front ++ y :: back) :
    ∃ xfront x xback, xs = xfront ++ x :: xback ∧ xfront.filterMap f = front ∧ f x = some y := by
  obtain ⟨before, rest, rfl, hbefore, hrest⟩ := List.filterMap_eq_append_iff.mp h
  obtain ⟨skipped, x, xback, rfl, hskipped, hx, -⟩ := List.filterMap_eq_cons_iff.mp hrest
  refine ⟨before ++ skipped, x, xback, by rw [List.append_assoc], ?_, hx⟩
  rw [List.filterMap_append, hbefore, List.filterMap_eq_nil_iff.mpr hskipped, List.append_nil]

end Members

/-- A computation on each member of a list succeeds exactly if it does on every one. -/
theorem mapM_eq_ok_iff {f : α → Except ε β} {xs : List α} {ys : List β} :
    xs.mapM f = .ok ys ↔ List.Forall₂ (fun x y => f x = .ok y) xs ys := by
  induction xs generalizing ys with
  | nil => simp [pure, Except.pure, eq_comm]
  | cons x xs ih =>
    rw [List.mapM_cons, bind_eq_ok_iff]
    constructor
    · rintro ⟨y, hy, h⟩
      obtain ⟨more, hmore, h⟩ := bind_eq_ok_iff.mp h
      obtain rfl := Except.ok.inj h
      exact .cons hy (ih.mp hmore)
    · intro h
      cases h with
      | @cons _ y _ more hy hmore =>
        exact ⟨y, hy, bind_eq_ok_iff.mpr ⟨more, ih.mpr hmore, rfl⟩⟩

/-- What is wrong with the first member that has something wrong with it. -/
def FirstFault (HasFault : α → ε → Prop) (xs : List α) (e : ε) : Prop :=
  ∃ front x back, xs = front ++ x :: back ∧ (∀ y ∈ front, ∀ e', ¬ HasFault y e') ∧ HasFault x e

/-- In an empty list there is no first fault. -/
theorem not_firstFault_nil {HasFault : α → ε → Prop} {e : ε} : ¬ FirstFault HasFault [] e := by
  rintro ⟨front, x, back, hsplit, -⟩
  exact absurd hsplit (by simp)

/-- The first fault is that of the first member, or that of the rest if the first member has none.
-/
theorem firstFault_cons_iff {HasFault : α → ε → Prop} {x : α} {xs : List α} {e : ε} :
    FirstFault HasFault (x :: xs) e ↔
      HasFault x e ∨ (∀ e', ¬ HasFault x e') ∧ FirstFault HasFault xs e := by
  constructor
  · rintro ⟨front, y, back, hsplit, hfront, hy⟩
    cases front with
    | nil =>
      obtain ⟨rfl, -⟩ := List.cons.inj hsplit
      exact .inl hy
    | cons x' front =>
      obtain ⟨rfl, rfl⟩ := List.cons.inj hsplit
      obtain ⟨hx, hfront⟩ := List.forall_mem_cons.mp hfront
      exact .inr ⟨hx, front, y, back, rfl, hfront, hy⟩
  · rintro (hx | ⟨hx, front, y, back, rfl, hfront, hy⟩)
    · exact ⟨[], x, xs, rfl, by simp, hx⟩
    · exact ⟨x :: front, y, back, rfl, List.forall_mem_cons.mpr ⟨hx, hfront⟩, hy⟩

/-- A single member has the first fault if it has one. -/
theorem firstFault_singleton_iff {HasFault : α → ε → Prop} {x : α} {e : ε} :
    FirstFault HasFault [x] e ↔ HasFault x e := by
  simp [firstFault_cons_iff, not_firstFault_nil]

/-- The first fault of two lists in a row is that of the first list, if it has one. -/
theorem firstFault_append_iff {HasFault : α → ε → Prop} {xs ys : List α} {e : ε} :
    FirstFault HasFault (xs ++ ys) e ↔
      FirstFault HasFault xs e ∨
        (∀ e', ¬ FirstFault HasFault xs e') ∧ FirstFault HasFault ys e := by
  induction xs with
  | nil => simp [not_firstFault_nil]
  | cons x xs ih =>
    rw [List.cons_append, firstFault_cons_iff, ih]
    simp only [firstFault_cons_iff]
    by_cases hx : ∃ e', HasFault x e'
    · obtain ⟨e', he'⟩ := hx
      have hnot : ¬ ∀ e', ¬ HasFault x e' := fun hall => hall e' he'
      simp only [hnot, false_and, or_false]
    · have hnone : ∀ e', ¬ HasFault x e' := not_exists.mp hx
      simp only [hnone, not_false_eq_true, implies_true, true_and, false_or]

/-- Going through blocks, each up to its first fault, finds the first fault of all items. -/
theorem firstFault_flatMap_iff {HasFault : β → ε → Prop} {items : α → List β} {blocks : List α}
    {e : ε} :
    FirstFault HasFault (blocks.flatMap items) e ↔
      FirstFault (fun block e => FirstFault HasFault (items block) e) blocks e := by
  induction blocks with
  | nil => simp [not_firstFault_nil]
  | cons block blocks ih =>
    rw [List.flatMap_cons, firstFault_append_iff, firstFault_cons_iff, ih]

/-- There is a first fault if there is any. -/
theorem exists_firstFault_iff {HasFault : α → ε → Prop} {xs : List α} :
    (∃ e, FirstFault HasFault xs e) ↔ ∃ x ∈ xs, ∃ e, HasFault x e := by
  induction xs with
  | nil => simp [not_firstFault_nil]
  | cons x xs ih =>
    simp only [firstFault_cons_iff, exists_or, exists_and_left, ih, List.exists_mem_cons_iff]
    by_cases hx : ∃ e, HasFault x e
    · simp [hx]
    · simp [not_exists.mp hx]

/-- If each of two computations fails with the first fault of a list, the two in a row fail with the
first fault of both lists. -/
theorem bind_eq_error_iff_firstFault {γ : Type} {HasFault : γ → ε → Prop} {xs ys : List γ}
    {x : Except ε α} {f : α → Except ε β} {e : ε}
    (hx : ∀ e, x = .error e ↔ FirstFault HasFault xs e)
    (hf : ∀ a, x = .ok a → (f a = .error e ↔ FirstFault HasFault ys e)) :
    x >>= f = .error e ↔ FirstFault HasFault (xs ++ ys) e := by
  rw [bind_eq_error_iff, firstFault_append_iff, hx]
  refine or_congr_right ⟨?_, ?_⟩
  · rintro ⟨a, ha, he⟩
    refine ⟨fun e' he' => ?_, (hf a ha).mp he⟩
    rw [(hx e').mpr he'] at ha
    simp at ha
  · rintro ⟨hnone, he⟩
    obtain ⟨a, ha⟩ := exists_eq_ok_iff.mpr fun e' he' => hnone e' ((hx e').mp he')
    exact ⟨a, ha, (hf a ha).mpr he⟩

/-- A computation on each member of a list fails as it does on the first member that it fails on. -/
theorem mapM_eq_error_iff {f : α → Except ε β} {xs : List α} {e : ε} :
    xs.mapM f = .error e ↔ FirstFault (fun x e => f x = .error e) xs e := by
  induction xs with
  | nil => simp [pure, Except.pure, not_firstFault_nil]
  | cons x xs ih =>
    rw [List.mapM_cons, firstFault_cons_iff, ← exists_eq_ok_iff, bind_eq_error_iff]
    refine or_congr_right ⟨?_, ?_⟩
    · rintro ⟨y, hy, h⟩
      rcases bind_eq_error_iff.mp h with h | ⟨more, -, h⟩
      · exact ⟨⟨y, hy⟩, ih.mp h⟩
      · exact absurd h pure_ne_error
    · rintro ⟨⟨y, hy⟩, h⟩
      exact ⟨y, hy, bind_eq_error_iff.mpr (.inl (ih.mpr h))⟩

/-- Every answer is the one for some member. -/
theorem exists_of_mem_mapM {f : α → Except ε β} {xs : List α} {ys : List β}
    (h : xs.mapM f = .ok ys) {y : β} (hy : y ∈ ys) : ∃ x ∈ xs, f x = .ok y :=
  exists_of_forall₂_mem (mapM_eq_ok_iff.mp h) hy

end Dialect
