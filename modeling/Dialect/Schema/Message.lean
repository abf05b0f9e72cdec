import Dialect.Schema.Checksum
import Dialect.Schema.Primitive
import Dialect.Text.Casing
import Dialect.Text.Utf8

/-!
# Messages and their fields

A message is an id, a name and its fields in wire order. What else a sender and a receiver have to
agree on follows from these: the length of the payload and the compatibility code, which is the
folded checksum of the name and the layout.
-/

namespace Dialect.Schema

/-- A field of a message. -/
structure Field where
  /-- The name in lower case, by which values are given and which is unique in the message. -/
  name : String
  /-- The name as the schema writes it, which enters the compatibility code. -/
  schemaName : String
  type : Primitive
  /-- One for a scalar, the number of elements for an array. -/
  arity : UInt8
  description : String
  deriving DecidableEq, Repr

namespace Field

/-- The field that a schema declares under `schemaName`. -/
def declare (schemaName : String) (type : Primitive) (arity : UInt8) (description : String) :
    Field :=
  ⟨Text.lower schemaName, schemaName, type, arity, description⟩

/-- The field is an array. -/
def isArray (f : Field) : Bool := 1 < f.arity

/-- The number of bytes the field takes in a payload. -/
def footprint (f : Field) : Nat := f.type.width * f.arity.toNat

/-- The rank of the field's alignment class. -/
def rank (f : Field) : Nat := f.type.alignment.rank

end Field

/-- A message: its fields stand in wire order. -/
structure Message where
  id : UInt8
  name : String
  description : Option String
  fields : List Field
  deriving DecidableEq, Repr

namespace Message

/-- The first field with the given lower-case name. -/
def field? (m : Message) (name : String) : Option Field := m.fields.find? (·.name == name)

/-- The number of bytes in a payload of the message. -/
def payloadLength (m : Message) : Nat := m.fields.foldr (fun f n => f.footprint + n) 0

end Message

/-- The text as bytes. -/
def textBytes (s : String) : List UInt8 := Text.Utf8.encode s.toList

/-- What a field adds to the hashed layout: its type and its name, a space after each, and for an
array one byte that holds the length. -/
def Field.layoutBytes (f : Field) : List UInt8 :=
  textBytes f.type.wire.name ++ 32 :: textBytes f.schemaName ++ 32 ::
    (if f.isArray then [f.arity] else [])

/-- The hashed layout of a message: its name in upper case and a space, then its fields. -/
def layoutBytes (name : String) (fields : List Field) : List UInt8 :=
  textBytes (Text.upper name) ++ 32 :: fields.flatMap Field.layoutBytes

/-- The compatibility code of a message with the given name and fields in wire order. -/
def compatibilityCode (name : String) (fields : List Field) : UInt8 :=
  Checksum.fold (Checksum.accumulate Checksum.seed (layoutBytes name fields))

/-- The compatibility code of the message. -/
def Message.code (m : Message) : UInt8 := compatibilityCode m.name m.fields

end Dialect.Schema
