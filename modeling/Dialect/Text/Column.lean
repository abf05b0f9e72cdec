/-!
# Columns

Text padded with spaces to a number of characters. A text that is already as long stays whole.
-/

namespace Dialect.Text

/-- Left-aligned in a column of `width` characters. -/
def padRight (width : Nat) (s : String) : String :=
  s ++ String.ofList (List.replicate (width - s.length) ' ')

/-- Right-aligned in a column of `width` characters. -/
def padLeft (width : Nat) (s : String) : String :=
  String.ofList (List.replicate (width - s.length) ' ') ++ s

end Dialect.Text
