import Dialect.Text.Utf8

/-!
# Faults of a source text

Why a source cannot be read as an element tree. A source that does not follow the grammar is
`malformed` whatever else is wrong with it; the other faults are found in sources that do.
-/

namespace Dialect.Markup

/-- Why a source is no element tree. -/
inductive Fault where
  /-- The source does not follow the grammar. -/
  | malformed
  /-- The tag on `line` that should close `opened` closes `closed`. -/
  | mismatchedTag (opened closed : String) (line : Nat)
  /-- A reference that stands for no character. -/
  | unknownEntity (entity : String) (line : Nat)
  /-- The bytes of the source are not text. -/
  | encoding (fault : Text.Utf8.Fault)
  deriving DecidableEq, Repr

/-- The wording of a fault. -/
def Fault.message : Fault → String
  | .malformed => "syntax: the source does not follow the grammar"
  | .mismatchedTag opened closed line =>
    s!"line {line}: closing tag </{closed}> does not match <{opened}>"
  | .unknownEntity entity line => s!"line {line}: unknown entity '&{entity};'"
  | .encoding fault => s!"not valid UTF-8: {fault.message}"

end Dialect.Markup
