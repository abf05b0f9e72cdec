import Dialect.Payload.Bytes
import Dialect.Payload.Plan
import Dialect.Schema.TypeSpec
import Dialect.Text.Column

/-!
# The listing of a message

What one message looks like on the wire, for a reader: its head, its fields with their places, and
the steps of packing, unpacking and checking it.
-/

namespace Dialect.Listing

open Dialect.Payload (ByteOrder Step plan lengths)
open Dialect.Schema (Field Message TypeSpec)
open Dialect.Text (padLeft padRight)

/-- The type of the field as a schema would write it. -/
def typeText (f : Field) : String := TypeSpec.text ⟨f.type, f.arity⟩

/-- The name of a byte order. -/
def orderText : ByteOrder → String
  | .little => "little-endian"
  | .big => "big-endian"

/-- The number of bytes in front of something, as every line of a listing gives it. -/
def offsetText (offset : Nat) : String := s!"  {padLeft 3 (toString offset)}  "

/-- The line of a field whose bytes begin at `offset`. -/
def fieldLine (offset : Nat) (f : Field) : String :=
  let remark := if f.description = "" then "" else s!"  # {f.description}"
  s!"{offsetText offset}{padRight 28 (typeText f)} {padRight 20 f.schemaName} class={f.rank}" ++
    s!"{remark}\n"

/-- The lines of fields whose bytes begin at `offset`. -/
def fieldLines (offset : Nat) : List Field → List String
  | [] => []
  | f :: rest => fieldLine offset f :: fieldLines (offset + f.footprint) rest

/-- The field of a step, with its place in an array. -/
def targetText (s : Step) : String :=
  match s.index with
  | none => s.field
  | some i => s!"{s.field}[{i}]"

/-- The line of a step of packing. -/
def packLine (s : Step) : String :=
  s!"{offsetText s.offset}put_{s.wire.shortName} {targetText s}\n"

/-- The line of a step of unpacking. -/
def unpackLine (s : Step) : String :=
  s!"{offsetText s.offset}{targetText s} = get_{s.wire.shortName}\n"

/-- The line of a check. -/
def lengthLine (field : String) (count : Nat) : String := s!"  len({field}) == {count}\n"

/-- The line, or none, that gives the description of a message. -/
def descriptionLine (description : Option String) : String :=
  match description with
  | none => ""
  | some d => s!"description: {d}\n"

/-- The listing of a message. -/
def message (order : ByteOrder) (m : Message) : String :=
  s!"message {m.name} id={m.id} payload_len={m.payloadLength} crc_extra={m.code}\n" ++
  descriptionLine m.description ++
  "\nfields:\n" ++ String.join (fieldLines 0 m.fields) ++
  s!"\npack ({orderText order}):\n" ++ String.join ((plan m).map packLine) ++
  "\nunpack:\n" ++ String.join ((plan m).map unpackLine) ++
  "\nverify:\n" ++ String.join ((lengths m).map fun p => lengthLine p.1 p.2)

/-! ## What the lines say -/

/-- The line of a field: the number of bytes in front of it, its type and its name in columns, its
class, and its description if it has one. -/
theorem fieldLine_text (offset : Nat) (f : Field) :
    fieldLine offset f =
      "  " ++ padLeft 3 (toString offset) ++ "  " ++ padRight 28 (typeText f) ++ " " ++
        padRight 20 f.schemaName ++ " class=" ++ toString f.rank ++
        (if f.description = "" then "" else "  # " ++ f.description) ++ "\n" :=
  String.append_assoc.symm

/-- The line of a step of packing: the number of bytes in front of it, its form and its field. -/
theorem packLine_text (s : Step) :
    packLine s = "  " ++ padLeft 3 (toString s.offset) ++ "  " ++ "put_" ++ s.wire.shortName ++
      " " ++ targetText s ++ "\n" := rfl

/-- The line of a step of unpacking: the same, with the field in front. -/
theorem unpackLine_text (s : Step) :
    unpackLine s = "  " ++ padLeft 3 (toString s.offset) ++ "  " ++ targetText s ++ " = get_" ++
      s.wire.shortName ++ "\n" := rfl

end Dialect.Listing
