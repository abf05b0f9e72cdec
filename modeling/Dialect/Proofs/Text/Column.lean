import Dialect.Proofs.Text.Blank
import Dialect.Proofs.Text.Numeral
import Dialect.Text.Column

/-!
# Columns and the numbers in them

How wide a padded text is, and what can be told of the text from it: a numeral is all of it that is
not blank, and a name is known but for spaces at its end that the padding might have put there
(`padRight_inj`).
-/

namespace Dialect.Text

variable {width base n : Nat} {s s' : String} {numeral : List Char}

/-! ## Numerals in a text -/

/-- Digits are no blanks and no commas. -/
theorem IsNumeral.plain (h : IsNumeral base numeral n) :
    (∀ c ∈ numeral, ¬ isBlank c) ∧ ',' ∉ numeral := by
  have hdigit : ∀ c ∈ lowerDigits ++ upperDigits, ¬ isBlank c ∧ c ≠ ',' := by
    simp [lowerDigits, upperDigits, isBlank]
  constructor
  · intro c hc
    exact (hdigit c (h.mem_of_mem hc)).1
  · intro hc
    exact (hdigit ',' (h.mem_of_mem hc)).2 rfl

/-- A numeral with blanks around it is all that is left when they are trimmed. -/
theorem IsNumeral.trim_eq {front back : List Char} (h : IsNumeral base numeral n)
    (hfront : AllBlank front) (hback : AllBlank back) :
    trim (front ++ numeral ++ back) = numeral := by
  apply trim_eq_iff.mpr
  refine ⟨front, back, rfl, hfront, hback, ?_, ?_⟩
  · intro c hc
    exact h.plain.1 c (List.mem_of_mem_head? hc)
  · intro c hc
    exact h.plain.1 c (List.mem_reverse.mp (List.mem_of_mem_head? hc))

theorem allBlank_replicate (count : Nat) : AllBlank (List.replicate count ' ') := by
  intro c hc
  rw [List.eq_of_mem_replicate hc]
  decide

/-- No blank is part of a numeral. -/
theorem IsNumeral.blank_notMem {c : Char} (h : IsNumeral base numeral n) (hc : isBlank c) :
    c ∉ numeral := by
  intro hmem
  exact h.plain.1 c hmem hc

/-- Three digits are enough for a byte. -/
theorem length_repr_le (n : UInt8) : n.toNat.repr.length ≤ 3 := by
  apply (Nat.length_repr_le_iff (by decide)).mpr
  have := n.toNat_lt
  omega

/-! ## Columns -/

/-- What is put at the left of a column has spaces behind it. -/
theorem toList_padRight (width : Nat) (s : String) :
    (padRight width s).toList = s.toList ++ List.replicate (width - s.length) ' ' := by
  unfold padRight
  rw [String.toList_append, String.toList_ofList]

/-- What is put at the right of a column has spaces in front of it. -/
theorem toList_padLeft (width : Nat) (s : String) :
    (padLeft width s).toList = List.replicate (width - s.length) ' ' ++ s.toList := by
  unfold padLeft
  rw [String.toList_append, String.toList_ofList]

/-- A text in a column is as wide as the column, or as it is itself. -/
theorem length_padRight (width : Nat) (s : String) :
    (padRight width s).toList.length = max width s.length := by
  rw [toList_padRight, List.length_append, List.length_replicate, String.length_toList]
  omega

theorem length_padLeft (width : Nat) (s : String) :
    (padLeft width s).toList.length = max width s.length := by
  rw [toList_padLeft, List.length_append, List.length_replicate, String.length_toList]
  omega

/-- A number can be read from its column. -/
theorem trim_padLeft_repr (width n : Nat) :
    trim (padLeft width n.repr).toList = n.repr.toList := by
  have h := (isNumeral_repr n).trim_eq (allBlank_replicate (width - n.repr.length)) allBlank_nil
  rw [List.append_nil] at h
  rw [toList_padLeft, h]

/-- The text does not end with a space that the column could have put there. -/
def Settled (width : Nat) (s : String) : Prop := s.length ≤ width → s.toList.getLast? ≠ some ' '

instance : Decidable (Settled width s) := inferInstanceAs (Decidable (_ → _))

/-- Of two texts that are padded to the same, the longer one has only spaces behind the other. -/
theorem eq_of_padRight_eq (hle : s.length ≤ s'.length) (h' : Settled width s')
    (heq : padRight width s = padRight width s') : s = s' := by
  have hwidths := congrArg (·.toList.length) heq
  simp only [length_padRight] at hwidths
  have hchars := congrArg String.toList heq
  rw [toList_padRight, toList_padRight] at hchars
  obtain ⟨behind, hbehind⟩ : s.toList <+: s'.toList := by
    apply List.prefix_of_prefix_length_le (List.prefix_append _ _)
    · rw [hchars]
      exact List.prefix_append _ _
    · rwa [String.length_toList, String.length_toList]
  rw [← hbehind, List.append_assoc] at hchars
  have hspaces := List.append_cancel_left hchars
  rcases List.eq_nil_or_concat behind with rfl | ⟨front, c, rfl⟩
  · rw [List.append_nil] at hbehind
    exact String.toList_inj.mp hbehind
  · -- the last of them is a space, and the column is wide enough to have put it there
    have hc : c ∈ List.replicate (width - s.length) ' ' := by
      rw [hspaces]
      simp
    have hlonger := congrArg List.length hbehind
    simp only [List.length_append, List.length_concat, String.length_toList] at hlonger
    refine absurd ?_ (h' (by omega))
    rw [← hbehind, List.eq_of_mem_replicate hc]
    simp

/-- Texts that are settled in a column are known from what stands there. -/
theorem padRight_inj (h : Settled width s) (h' : Settled width s') :
    padRight width s = padRight width s' ↔ s = s' := by
  constructor
  · intro heq
    rcases Nat.le_total s.length s'.length with hle | hle
    · exact eq_of_padRight_eq hle h' heq
    · exact (eq_of_padRight_eq hle h heq.symm).symm
  · intro heq
    rw [heq]

end Dialect.Text
