import Dialect.Schema.Table
import Dialect.Text.Column

/-!
# The listings of a table

The codes of all ids as a list in lines of bounded width, and the messages of a table one to a line.
-/

namespace Dialect.Listing

open Dialect.Schema (Slot Table)
open Dialect.Text (padLeft padRight)

/-- The number of characters a line of codes may have. -/
def lineWidth : Nat := 80

/-- The beginning of a line of codes. -/
def margin : String := " "

/-- Numbers as items of a list: each with a space in front and, the last one apart, a comma
behind. -/
def items : List UInt8 → List String
  | [] => []
  | [n] => [s!" {n}"]
  | n :: rest => s!" {n}," :: items rest

/-- Puts items on lines. An item that would make the line too long begins the next one. -/
def wrap (line : String) : List String → List String
  | [] => [line]
  | item :: rest =>
    if lineWidth < line.length + item.length then line :: wrap (margin ++ item) rest
    else wrap (line ++ item) rest

/-- The codes of all ids. -/
def codes (t : Table) : String :=
  s!"crc_extra[{Table.size}] = \x7b\n" ++
  String.join ((wrap margin (items t.codes)).map (· ++ "\n")) ++
  "\x7d\n"

/-- The line of a message in a table. -/
def slotLine (s : Slot) : String :=
  s!"{padLeft 3 (toString s.id)} {padRight 32 s.name} {s.code}\n"

/-- The messages of a table. -/
def dispatch (t : Table) : String := String.join (t.entries.map slotLine)

end Dialect.Listing
