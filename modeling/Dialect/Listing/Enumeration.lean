import Dialect.Schema.Enumeration
import Dialect.Text.Column

/-!
# The listing of enumerations

All enumerations of a document, their entries one to a line with the equals signs in a column. The
column is as wide as the longest name in bytes.
-/

namespace Dialect.Listing

open Dialect.Schema (Entry Enumeration)
open Dialect.Text (padRight)

/-- The remark at the end of a line. -/
def remarkText (description : Option String) : String :=
  match description with
  | none => ""
  | some d => s!"  # {d}"

/-- The number of bytes of the longest of some names. -/
def longest : List Entry → Nat
  | [] => 0
  | e :: rest => let n := longest rest; if n ≤ e.name.utf8ByteSize then e.name.utf8ByteSize else n

/-- The line of an entry whose name stands in a column of `width` characters. -/
def entryLine (width : Nat) (e : Entry) : String :=
  s!"  {padRight width e.name} = {e.value}{remarkText e.description}\n"

/-- The listing of one enumeration. -/
def enumeration (e : Enumeration) : String :=
  let head := match e.description with
    | none => s!"\nenum {e.name}\n"
    | some d => s!"\nenum {e.name}\n  # {d}\n"
  head ++ String.join (e.entries.map (entryLine (longest e.entries)))

/-- The listing of the enumerations of a document. -/
def enumerations (document : String) (all : List Enumeration) : String :=
  s!"enums of {document}\n" ++ String.join (all.map enumeration)

end Dialect.Listing
