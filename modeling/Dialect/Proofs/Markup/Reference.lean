import Dialect.Markup.Document
import Dialect.Proofs.Outcome

/-!
# What references stand for

`Resolves` relates a text to the one with characters in the place of its references; expanding a
text finds the one it resolves to, if there is one. Texts resolve piece by piece, so it makes no
difference in how many runs a text is written.
-/

namespace Dialect.Markup

/-- Putting characters in the place of the references of a text gives another. -/
inductive Resolves : List Char → List Char → Prop
  | nil : Resolves [] []
  | plain {c : Char} {raw text : List Char} (hc : c ≠ '&') (h : Resolves raw text) :
      Resolves (c :: raw) (c :: text)
  | reference {entity : List Char} {x : Char} {raw text : List Char} (hend : ';' ∉ entity)
      (hx : referenced? entity = some x) (h : Resolves raw text) :
      Resolves ('&' :: (entity ++ ';' :: raw)) (x :: text)

/-- What two texts stand for, they stand for one behind the other. -/
theorem Resolves.append {raw text raw' text' : List Char} (h : Resolves raw text)
    (h' : Resolves raw' text') : Resolves (raw ++ raw') (text ++ text') := by
  induction h with
  | nil => exact h'
  | plain hc _ ih => exact .plain hc ih
  | reference hend hx _ ih =>
    simp only [List.cons_append, List.append_assoc]
    exact .reference hend hx ih

/-! ## Expanding -/

/-- A text is split at the first mark. -/
theorem cut?_eq_some_iff {mark : Char} {s before after : List Char} :
    cut? mark s = some (before, after) ↔ s = before ++ mark :: after ∧ mark ∉ before := by
  refine ⟨cut?_eq_some, ?_⟩
  rintro ⟨rfl, hbefore⟩
  induction before with
  | nil => simp [cut?]
  | cons c before ih =>
    obtain ⟨hc, hbefore⟩ := not_or.mp (mt List.mem_cons.mpr hbefore)
    simp [cut?, Ne.symm hc, ih hbefore]

/-- A text is not cut exactly if the mark is not in it. -/
theorem cut?_eq_none_iff {mark : Char} {s : List Char} : cut? mark s = none ↔ mark ∉ s := by
  induction s with
  | nil => simp [cut?]
  | cons c s ih =>
    by_cases hc : c = mark
    · simp [cut?, hc]
    · simp [cut?, hc, Ne.symm hc, ih]

/-- A plain character stays, and what follows it is expanded. -/
theorem expand_cons_of_ne {c : Char} (hc : c ≠ '&') (rest : List Char) :
    expand (c :: rest) = (c :: ·) <$> expand rest := by
  rw [expand, if_neg hc]

/-- A reference that stands for a character is replaced, and what follows it is expanded. -/
theorem expand_reference {entity : List Char} {x : Char} (hend : ';' ∉ entity)
    (hx : referenced? entity = some x) (rest : List Char) :
    expand ('&' :: (entity ++ ';' :: rest)) = (x :: ·) <$> expand rest := by
  have hcut : cut? ';' (entity ++ ';' :: rest) = some (entity, rest) :=
    cut?_eq_some_iff.mpr ⟨rfl, hend⟩
  rw [expand, if_pos rfl]
  split
  · rename_i hnone
    rw [hcut] at hnone
    simp at hnone
  · rename_i before after hsome
    rw [hcut] at hsome
    obtain ⟨rfl, rfl⟩ := Prod.mk.inj (Option.some.inj hsome)
    rw [hx]

/-- A text whose references all stand for something is expanded to what it stands for. -/
theorem Resolves.expand_eq {raw text : List Char} (h : Resolves raw text) :
    expand raw = .ok text := by
  induction h with
  | nil => rw [expand]
  | plain hc _ ih => rw [expand_cons_of_ne hc, ih]; rfl
  | reference hend hx _ ih => rw [expand_reference hend hx, ih]; rfl

/-- A text that is expanded stands for what comes out. -/
theorem resolves_of_expand {raw text : List Char} (h : expand raw = .ok text) :
    Resolves raw text := by
  fun_induction expand raw generalizing text with
  | case1 =>
    obtain rfl := Except.ok.inj h
    exact .nil
  | case2 => simp at h
  | case3 => simp at h
  | case4 rest entity after hcut _ x hx ih =>
    obtain ⟨text, htext, rfl⟩ := map_eq_ok_iff.mp h
    obtain ⟨rfl, hend⟩ := cut?_eq_some hcut
    exact .reference hend hx (ih htext)
  | case5 c rest hc ih =>
    obtain ⟨text, htext, rfl⟩ := map_eq_ok_iff.mp h
    exact .plain hc (ih htext)

/-- Expanding a text succeeds exactly if every reference in it stands for a character. -/
theorem expand_eq_ok_iff {raw text : List Char} : expand raw = .ok text ↔ Resolves raw text :=
  ⟨resolves_of_expand, Resolves.expand_eq⟩

/-- On whatever line it stands, a text is expanded to what it stands for. -/
theorem expandAt_eq_ok_iff {line : Nat} {raw text : List Char} :
    expandAt line raw = .ok text ↔ Resolves raw text :=
  mapError_eq_ok_iff.trans expand_eq_ok_iff

/-! ## Attributes -/

/-- The attribute `a` has the name and the resolved value of `raw`. -/
def RawAttribute.ResolvesTo (raw : RawAttribute) (a : String × String) : Prop :=
  a.1 = raw.name ∧ Resolves raw.value a.2.toList

/-- An attribute is expanded if its value is, and its name stays. -/
theorem RawAttribute.expand_eq_ok_iff {raw : RawAttribute} {a : String × String} :
    raw.expand = .ok a ↔ raw.ResolvesTo a := by
  rw [RawAttribute.expand, bind_eq_ok_iff]
  constructor
  · rintro ⟨value, hvalue, ha⟩
    obtain rfl := Except.ok.inj ha
    exact ⟨rfl, by simpa using expandAt_eq_ok_iff.mp hvalue⟩
  · rintro ⟨hname, hvalue⟩
    refine ⟨a.2.toList, expandAt_eq_ok_iff.mpr hvalue, ?_⟩
    rw [String.ofList_toList, ← hname]
    rfl

/-- Attributes are expanded if each of them is. -/
theorem expandAll_eq_ok_iff {raws : List RawAttribute} {as : List (String × String)} :
    raws.mapM RawAttribute.expand = .ok as ↔ List.Forall₂ RawAttribute.ResolvesTo raws as := by
  rw [mapM_eq_ok_iff]
  simp only [RawAttribute.expand_eq_ok_iff]

end Dialect.Markup
