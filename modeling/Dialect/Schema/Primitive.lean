/-!
# Primitive types

The types a field may have. Eleven of them are forms a number takes on the wire (`Wire`); the
twelfth, the protocol version marker, is an unsigned byte there. A primitive's alignment class
decides where its field stands in a message: wider types come first, so every field lies at a
multiple of its width.
-/

namespace Dialect.Schema

/-- The forms of a number on the wire. -/
inductive Wire where
  | double | int64 | uint64 | int32 | uint32 | float | int16 | uint16 | int8 | uint8 | char
  deriving DecidableEq, Repr

namespace Wire

/-- The name used in schema documents. -/
def name : Wire → String
  | double => "double"
  | int64 => "int64_t"
  | uint64 => "uint64_t"
  | int32 => "int32_t"
  | uint32 => "uint32_t"
  | float => "float"
  | int16 => "int16_t"
  | uint16 => "uint16_t"
  | int8 => "int8_t"
  | uint8 => "uint8_t"
  | char => "char"

/-- The name without the ending `_t`, as it stands in listings. -/
def shortName : Wire → String
  | double => "double"
  | int64 => "int64"
  | uint64 => "uint64"
  | int32 => "int32"
  | uint32 => "uint32"
  | float => "float"
  | int16 => "int16"
  | uint16 => "uint16"
  | int8 => "int8"
  | uint8 => "uint8"
  | char => "char"

/-- The number of bytes. -/
def width : Wire → Nat
  | double | int64 | uint64 => 8
  | int32 | uint32 | float => 4
  | int16 | uint16 => 2
  | int8 | uint8 | char => 1

end Wire

/-- Alignment classes, by falling width of the types in them. -/
inductive AlignmentClass where
  | wide | word | half | byte
  deriving DecidableEq, Repr

namespace AlignmentClass

/-- The number of the class: lower numbers stand first in a message. Two is not in use. -/
def rank : AlignmentClass → Nat
  | wide => 0
  | word => 1
  | half => 3
  | byte => 4

end AlignmentClass

/-- The types a field may have. -/
inductive Primitive where
  | plain (wire : Wire)
  /-- An unsigned byte that the sender fills with its protocol version. -/
  | versionMarker
  deriving DecidableEq, Repr

namespace Primitive

/-- The form of the type on the wire. -/
def wire : Primitive → Wire
  | plain w => w
  | versionMarker => .uint8

/-- The name used in schema documents. -/
def name : Primitive → String
  | plain w => w.name
  | versionMarker => "uint8_t_mavlink_version"

/-- The number of bytes on the wire. -/
def width (p : Primitive) : Nat := p.wire.width

/-- The alignment class of the type. -/
def alignment (p : Primitive) : AlignmentClass :=
  match p.wire with
  | .double | .int64 | .uint64 => .wide
  | .int32 | .uint32 | .float => .word
  | .int16 | .uint16 => .half
  | .int8 | .uint8 | .char => .byte

/-- All types, the version marker last. -/
def all : List Primitive :=
  [.plain .double, .plain .int64, .plain .uint64, .plain .int32, .plain .uint32, .plain .float,
    .plain .int16, .plain .uint16, .plain .int8, .plain .uint8, .plain .char, .versionMarker]

/-- The type with the given name. -/
def ofName? (name : String) : Option Primitive := all.find? (·.name == name)

/-- Every type is found under its name, so no two types have the same name. -/
theorem ofName?_name (p : Primitive) : ofName? p.name = some p := by
  cases p with
  | plain w => cases w <;> decide
  | versionMarker => decide

end Primitive

end Dialect.Schema
