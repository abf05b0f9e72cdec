import Dialect.Text.Blank
import Mathlib.Data.List.TakeWhile

/-!
# Blanks at the ends of a text

Trimming takes away just the blanks at the two ends of a text (`trim_eq_iff`), so a text without
blanks is left as it is.
-/

namespace Dialect.Text

/-- All characters of the text are blank. -/
def AllBlank (s : List Char) : Prop := ∀ c ∈ s, isBlank c

instance (s : List Char) : Decidable (AllBlank s) := List.decidableBAll (isBlank ·) s

theorem allBlank_nil : AllBlank [] := nofun

theorem allBlank_append {s s' : List Char} (h : AllBlank s) (h' : AllBlank s') :
    AllBlank (s ++ s') := by
  intro c hc
  exact (List.mem_append.mp hc).elim (h c) (h' c)

/-- The text does not begin with a blank. -/
def BeginsPlain (s : List Char) : Prop := ∀ c ∈ s.head?, ¬ isBlank c

variable {s t front back : List Char}

/-- Without the blanks in front of it, a text is left. -/
theorem dropWhile_isBlank (hfront : AllBlank front) (ht : BeginsPlain t) :
    (front ++ t).dropWhile isBlank = t := by
  rw [List.dropWhile_append_of_pos hfront]
  cases t with
  | nil => rfl
  | cons c rest => exact List.dropWhile_cons_of_neg (ht c rfl)

/-- A text is blanks, and then what begins with no blank. -/
theorem exists_dropWhile_isBlank (s : List Char) :
    ∃ front, s = front ++ s.dropWhile isBlank ∧ AllBlank front ∧
      BeginsPlain (s.dropWhile isBlank) := by
  refine ⟨s.takeWhile isBlank, List.takeWhile_append_dropWhile.symm,
    fun c => List.mem_takeWhile_imp, fun c hc => ?_⟩
  have hhead := List.head?_dropWhile_not isBlank s
  rw [Option.mem_def.mp hc] at hhead
  exact Bool.eq_false_iff.mp hhead

/-- Trimming a text leaves what stands between blanks and neither begins nor ends with one. -/
theorem trim_eq_iff :
    trim s = t ↔ ∃ front back, s = front ++ t ++ back ∧ AllBlank front ∧ AllBlank back ∧
      BeginsPlain t ∧ BeginsPlain t.reverse := by
  constructor
  · rintro rfl
    obtain ⟨front, hs, hfront, hplain⟩ := exists_dropWhile_isBlank s
    obtain ⟨back, hrest, hback, hlast⟩ := exists_dropWhile_isBlank (s.dropWhile isBlank).reverse
    have hrest : s.dropWhile isBlank = trim s ++ back.reverse := by
      rw [trim, ← List.reverse_append, ← hrest, List.reverse_reverse]
    refine ⟨front, back.reverse, ?_, hfront, fun c hc => hback c (List.mem_reverse.mp hc), ?_, ?_⟩
    · rw [List.append_assoc, ← hrest, ← hs]
    · intro c hc
      refine hplain c ?_
      rw [hrest, List.head?_append, Option.mem_def.mp hc]
      rfl
    · rwa [trim, List.reverse_reverse]
  · rintro ⟨front, back, rfl, hfront, hback, hplain, hlast⟩
    cases t with
    | nil =>
      -- nothing is left, and all that goes away goes in front
      have hall : AllBlank (front ++ back) := allBlank_append hfront hback
      have hnil : (front ++ back).dropWhile isBlank = [] := List.dropWhile_eq_nil_iff.mpr hall
      rw [trim, List.append_nil, hnil]
      rfl
    | cons d rest =>
      have hback : AllBlank back.reverse := fun c hc => hback c (List.mem_reverse.mp hc)
      have hrest : BeginsPlain (d :: rest ++ back) := hplain
      rw [trim, List.append_assoc, dropWhile_isBlank hfront hrest, List.reverse_append,
        dropWhile_isBlank hback hlast, List.reverse_reverse]

/-- A text without blanks is left as it is. -/
theorem trim_of_forall (h : ∀ c ∈ s, ¬ isBlank c) : trim s = s := by
  refine trim_eq_iff.mpr ⟨[], [], by simp, nofun, nofun, ?_, ?_⟩
  · exact fun c hc => h c (List.mem_of_mem_head? hc)
  · exact fun c hc => h c (List.mem_reverse.mp (List.mem_of_mem_head? hc))

end Dialect.Text
