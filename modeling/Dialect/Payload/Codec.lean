import Dialect.Payload.Plan
import Dialect.Payload.Value

/-!
# Packing and unpacking

Values go into a payload and come out of it along the plan of their message. Packing first checks
that every field holds its declared number of elements, then writes them one by one. Unpacking takes
exactly as many bytes as the payload has.
-/

namespace Dialect.Payload

open Dialect.Schema (Field Message Wire)

/-- Values by the lower-case names of their fields. -/
abbrev Values := List (String × Value)

/-- Why values cannot be packed, or bytes cannot be unpacked. -/
inductive Fault where
  /-- The payload ends before the last number. -/
  | endOfPayload
  | unknownMessage (name : String)
  /-- The field does not hold its declared number of elements. -/
  | packing (field : String)
  | typeMismatch (field : String) (expected : Wire)
  | payloadLength (message : String) (expected actual : Nat)
  deriving DecidableEq, Repr

/-- The wording of a fault. -/
def Fault.message : Fault → String
  | .endOfPayload => "IO: failed to fill whole buffer"
  | .unknownMessage name => s!"Unknown message: {name}"
  | .packing field =>
    s!"Packing: field '{field}' does not hold its declared number of elements"
  | .typeMismatch field expected => s!"Type mismatch: field '{field}' expects {expected.name}"
  | .payloadLength message expected actual =>
    s!"Payload length: {message} expects {expected} bytes, got {actual}"

/-! ## Packing -/

/-- The number of elements the values hold for a field; none when it is missing. -/
def held (values : Values) (field : String) : Nat := ((values.lookup field).map Value.length).getD 0

/-- The first field that does not hold its declared number of elements. -/
def mismatch? (m : Message) (values : Values) : Option String :=
  ((lengths m).find? fun p => held values p.1 != p.2).map (·.1)

/-- The element that a step writes. -/
def Step.element? (s : Step) (values : Values) : Option Value :=
  (values.lookup s.field).bind (·.element? ((s.index.getD 1) - 1))

/-- The bytes that a step writes. -/
def Step.pack (order : ByteOrder) (values : Values) (s : Step) : Except Fault (List UInt8) :=
  match s.element? values with
  | none => .error (.packing s.field)
  | some (.scalar x) =>
    if x.wire = s.wire then .ok (x.encode order) else .error (.typeMismatch s.field s.wire)
  | some (.list _) => .error (.typeMismatch s.field s.wire)

/-- The bytes that steps write one after the other. -/
def packSteps (order : ByteOrder) (values : Values) : List Step → Except Fault (List UInt8)
  | [] => .ok []
  | s :: rest => do
    let bytes ← s.pack order values
    let more ← packSteps order values rest
    return bytes ++ more

/-- The payload of a message with the given values. -/
def pack (order : ByteOrder) (m : Message) (values : Values) : Except Fault (List UInt8) :=
  match mismatch? m values with
  | some field => .error (.packing field)
  | none => packSteps order values (plan m)

/-! ## Unpacking -/

/-- The numbers that steps read one after the other. -/
def readSteps (order : ByteOrder) : List Step → List UInt8 → Except Fault (List Scalar)
  | [], _ => .ok []
  | s :: rest, bytes =>
    if bytes.length < s.wire.width then .error .endOfPayload
    else do
      let xs ← readSteps order rest (bytes.drop s.wire.width)
      return .decode order s.wire (bytes.take s.wire.width) :: xs

/-- Numbers in the order of the plan, sorted into the fields they belong to. -/
def gather : List Field → List Scalar → Values
  | [], _ => []
  | f :: rest, xs =>
    let own := (xs.take (stepCount f)).map Value.scalar
    let value := if f.isArray then .list own else own.headD (.list [])
    (f.name, value) :: gather rest (xs.drop (stepCount f))

/-- The values that a payload of the message holds. -/
def unpack (order : ByteOrder) (m : Message) (payload : List UInt8) : Except Fault Values :=
  if payload.length ≠ m.payloadLength then
    .error (.payloadLength m.name m.payloadLength payload.length)
  else (readSteps order (plan m) payload).map (gather m.fields)

/-! ## Codecs -/

/-- The messages two parties know, and the byte order they use. -/
structure Codec where
  order : ByteOrder := .little
  messages : List Message

namespace Codec

/-- The first message with the given name. -/
def message? (c : Codec) (name : String) : Option Message := c.messages.find? (·.name == name)

/-- The first message with the given id. -/
def messageById? (c : Codec) (id : UInt8) : Option Message := c.messages.find? (·.id == id)

/-- The payload of the message with the given name. -/
def encode (c : Codec) (name : String) (values : Values) : Except Fault (List UInt8) :=
  match c.message? name with
  | none => .error (.unknownMessage name)
  | some m => pack c.order m values

/-- The values in a payload of the message with the given name. -/
def decode (c : Codec) (name : String) (payload : List UInt8) : Except Fault Values :=
  match c.message? name with
  | none => .error (.unknownMessage name)
  | some m => unpack c.order m payload

end Codec

end Dialect.Payload
