import Dialect.Payload.Bytes
import Dialect.Schema.Primitive
import Dialect.Text.Utf8

/-!
# Values

What a field holds: one scalar or a list of elements. A scalar is a number in one of the forms of
the wire, floating point numbers as their bit patterns, so every pattern survives. Text is held as a
list of characters of one byte each.
-/

namespace Dialect.Payload

open Dialect.Schema (Wire Primitive)

/-- A number in one of the forms of the wire. -/
inductive Scalar where
  | u8 (x : UInt8)
  | u16 (x : UInt16)
  | u32 (x : UInt32)
  | u64 (x : UInt64)
  | i8 (x : Int8)
  | i16 (x : Int16)
  | i32 (x : Int32)
  | i64 (x : Int64)
  /-- A number in single precision, by its bit pattern. -/
  | float (bits : UInt32)
  /-- A number in double precision, by its bit pattern. -/
  | double (bits : UInt64)
  | char (x : UInt8)
  deriving DecidableEq, Repr

namespace Scalar

/-- The form of the number. -/
def wire : Scalar → Wire
  | u8 _ => .uint8
  | u16 _ => .uint16
  | u32 _ => .uint32
  | u64 _ => .uint64
  | i8 _ => .int8
  | i16 _ => .int16
  | i32 _ => .int32
  | i64 _ => .int64
  | float _ => .float
  | double _ => .double
  | char _ => .char

/-- The bit pattern of the number, as a natural number. -/
def bits : Scalar → Nat
  | u8 x => x.toNat
  | u16 x => x.toNat
  | u32 x => x.toNat
  | u64 x => x.toNat
  | i8 x => x.toUInt8.toNat
  | i16 x => x.toUInt16.toNat
  | i32 x => x.toUInt32.toNat
  | i64 x => x.toUInt64.toNat
  | float x => x.toNat
  | double x => x.toNat
  | char x => x.toNat

/-- The number of the given form with the given bit pattern. -/
def ofBits (w : Wire) (n : Nat) : Scalar :=
  match w with
  | .uint8 => u8 (UInt8.ofNat n)
  | .uint16 => u16 (UInt16.ofNat n)
  | .uint32 => u32 (UInt32.ofNat n)
  | .uint64 => u64 (UInt64.ofNat n)
  | .int8 => i8 (UInt8.ofNat n).toInt8
  | .int16 => i16 (UInt16.ofNat n).toInt16
  | .int32 => i32 (UInt32.ofNat n).toInt32
  | .int64 => i64 (UInt64.ofNat n).toInt64
  | .float => float (UInt32.ofNat n)
  | .double => double (UInt64.ofNat n)
  | .char => char (UInt8.ofNat n)

/-- The number as bytes. -/
def encode (order : ByteOrder) (x : Scalar) : List UInt8 :=
  order.arrange (bytesOf x.wire.width x.bits)

/-- The number of the given form with the given bytes. -/
def decode (order : ByteOrder) (w : Wire) (bytes : List UInt8) : Scalar :=
  ofBits w (ofBytes (order.arrange bytes))

/-- A number made of bits in a form has that form. -/
theorem wire_ofBits (w : Wire) (n : Nat) : (ofBits w n).wire = w := by cases w <;> rfl

/-- A number takes as many bytes as its form is wide. -/
theorem length_encode (order : ByteOrder) (x : Scalar) :
    (x.encode order).length = x.wire.width := by
  simp [encode, ByteOrder.length_arrange, length_bytesOf]

/-- The bits of a number fit into its form. -/
theorem bits_lt (x : Scalar) : x.bits < capacity x.wire.width := by
  cases x with
  | u8 x => exact x.toNat_lt
  | u16 x => exact x.toNat_lt
  | u32 x => exact x.toNat_lt
  | u64 x => exact x.toNat_lt
  | i8 x => exact x.toUInt8.toNat_lt
  | i16 x => exact x.toUInt16.toNat_lt
  | i32 x => exact x.toUInt32.toNat_lt
  | i64 x => exact x.toUInt64.toNat_lt
  | float x => exact x.toNat_lt
  | double x => exact x.toNat_lt
  | char x => exact x.toNat_lt

/-- A number is known from its form and its bits. -/
theorem ofBits_bits (x : Scalar) : ofBits x.wire x.bits = x := by
  cases x <;> simp [wire, bits, ofBits]

/-- A number is read back from its bytes, in either byte order. -/
theorem decode_encode (order : ByteOrder) (x : Scalar) :
    decode order x.wire (x.encode order) = x := by
  simp only [decode, encode, ByteOrder.arrange_arrange, ofBytes_bytesOf]
  rw [Nat.mod_eq_of_lt x.bits_lt, ofBits_bits]

end Scalar

/-- What a field holds. -/
inductive Value where
  | scalar (x : Scalar)
  | list (elements : List Value)
  deriving Repr

namespace Value

/-- Zero, in the form a type has on the wire. -/
def zero (p : Primitive) : Value := .scalar (.ofBits p.wire 0)

/-- The first `n` bytes of a text, filled up with NUL. -/
def text (s : String) (n : Nat) : Value :=
  let bytes := (Text.Utf8.encode s.toList).take n
  .list ((bytes ++ List.replicate (n - bytes.length) 0).map fun b => .scalar (.char b))

/-- The elements of a list. -/
def list? : Value → Option (List Value)
  | .scalar _ => none
  | .list elements => some elements

/-- The byte of a single character. -/
def char? : Value → Option UInt8
  | .scalar (.char b) => some b
  | _ => none

/-- The bytes of a list of characters up to the first NUL. What follows the NUL is not looked at;
anything but a character in front of it makes the list no text. -/
def textBytes? : List Value → Option (List UInt8)
  | [] => some []
  | v :: rest =>
    match v.char? with
    | none => none
    | some b => if b = 0 then some [] else (textBytes? rest).map (b :: ·)

/-- The text that a list of characters holds. -/
def text? (v : Value) : Option String := do
  let bytes ← textBytes? (← v.list?)
  return String.ofList (Text.Utf8.decodeLossy bytes)

/-- A scalar in the form that the type has on the wire. -/
def isA (p : Primitive) : Value → Bool
  | .scalar x => x.wire == p.wire
  | .list _ => false

/-- The number of elements: one for a scalar. -/
def length : Value → Nat
  | .scalar _ => 1
  | .list elements => elements.length

/-- The element at an index counted from zero. A scalar is its own and only element. -/
def element? (v : Value) (i : Nat) : Option Value :=
  match v with
  | .scalar _ => if i = 0 then some v else none
  | .list elements => elements[i]?

end Value

end Dialect.Payload
