import Dialect.Listing.Message
import Dialect.Proofs.Text.Column
import Dialect.Proofs.Text.Words

/-!
# Numbers at the beginning of lines

The lines of a listing that are for fields and for steps begin with the number of bytes in front of
them, right-aligned in a column. A column that is too narrow for a number grows with it, so whatever
the number is, it is the first word of its line, and can be read there.
-/

namespace Dialect.Listing

open Dialect.Payload (Step)
open Dialect.Schema (Field)
open Dialect.Text (AllBlank BeginsBlank IsWord numeral? padLeft words)

/-- The number that the first word of a line denotes. -/
def leadingNumber? (line : String) : Option Nat := (words line.toList).head?.bind (numeral? 10)

/-- A number in its column is read, whatever stands behind the column. -/
theorem leadingNumber?_append (n : Nat) (rest : String) :
    leadingNumber? ("  " ++ (padLeft 3 (toString n) ++ ("  " ++ rest))) = some n := by
  have hnumeral := Text.isNumeral_repr n
  have hword : IsWord n.repr.toList := ⟨hnumeral.1, hnumeral.plain.1⟩
  have hfront : AllBlank ("  ".toList ++ List.replicate (3 - n.repr.length) ' ') :=
    Text.allBlank_append (by decide) (Text.allBlank_replicate _)
  have hgap : BeginsBlank ("  ".toList ++ rest.toList) := by
    intro c hc
    obtain rfl : ' ' = c := Option.some.inj hc
    decide
  -- the digits with all the spaces on their two sides
  have htext : ("  " ++ (padLeft 3 n.repr ++ ("  " ++ rest))).toList =
      "  ".toList ++ List.replicate (3 - n.repr.length) ' ' ++
        (n.repr.toList ++ ("  ".toList ++ rest.toList)) := by
    simp only [String.toList_append, Text.toList_padLeft, List.append_assoc]
  show (words ("  " ++ (padLeft 3 n.repr ++ ("  " ++ rest))).toList).head?.bind (numeral? 10) = _
  rw [htext, Text.words_append_of_allBlank hfront, Text.words_append_of_isWord hword hgap]
  exact Text.numeral?_eq_some_iff.mpr hnumeral

/-- The number on the line of a field. -/
theorem leadingNumber?_fieldLine (offset : Nat) (f : Field) :
    leadingNumber? (fieldLine offset f) = some offset := by
  rw [fieldLine_text]
  simp only [String.append_assoc]
  exact leadingNumber?_append offset _

/-- The number on the line of a step of packing. -/
theorem leadingNumber?_packLine (s : Step) : leadingNumber? (packLine s) = some s.offset := by
  rw [packLine_text]
  simp only [String.append_assoc]
  exact leadingNumber?_append s.offset _

/-- The number on the line of a step of unpacking. -/
theorem leadingNumber?_unpackLine (s : Step) : leadingNumber? (unpackLine s) = some s.offset := by
  rw [unpackLine_text]
  simp only [String.append_assoc]
  exact leadingNumber?_append s.offset _

end Dialect.Listing
