import Dialect.Payload.Codec
import Dialect.Schema.Table
import Dialect.Text.Numeral

/-!
# Packets

A packet is a start byte, the length of the payload, who sent it, which message it is, the payload
and a checksum. The checksum covers everything behind the start byte and ends with the compatibility
code of the message, so a packet of a sender with another layout does not pass.
-/

namespace Dialect.Frame

open Dialect.Payload (Codec Values)
open Dialect.Schema (Checksum Table)
open Dialect.Text (hex)

/-- The byte every packet begins with. -/
def startByte : UInt8 := 0xFE

/-- The number of bytes in front of the payload. -/
def headerLength : Nat := 6

/-- The number of bytes behind the payload. -/
def checksumLength : Nat := 2

/-- Why bytes are no packet, or values cannot be framed. -/
inductive Fault where
  | badStart (found : UInt8)
  | truncated (needed available : Nat)
  | checksumMismatch (received computed : UInt16)
  | unknownMessage (id : UInt8)
  | payloadTooLong (length : Nat)
  | payload (fault : Payload.Fault)
  deriving DecidableEq, Repr

/-- The wording of a fault. -/
def Fault.message : Fault → String
  | .badStart found => s!"expected start byte 0xfe, found 0x{hex 2 found.toNat}"
  | .truncated needed available =>
    s!"truncated packet: need {needed} bytes, have {available}"
  | .checksumMismatch received computed =>
    s!"checksum mismatch: packet carries 0x{hex 4 received.toNat}, " ++
      s!"computed 0x{hex 4 computed.toNat}"
  | .unknownMessage id => s!"unsupported message id {id}"
  | .payloadTooLong length => s!"payload of {length} bytes does not fit a one-byte length"
  | .payload fault => s!"codec: {fault.message}"

/-- Who sent a packet, and its place in the sequence of that sender's packets. -/
structure Header where
  sequence : UInt8 := 0
  system : UInt8 := 0
  component : UInt8 := 0
  deriving DecidableEq, Repr

/-- A packet without its start byte, its length and its checksum. -/
structure Packet where
  header : Header
  messageId : UInt8
  payload : List UInt8
  deriving DecidableEq, Repr

namespace Packet

/-- The number of bytes of the packet on the wire. -/
def frameLength (p : Packet) : Nat := headerLength + p.payload.length + checksumLength

/-- What the checksum covers in front of the payload; the length is that of the payload if it fits
one byte. -/
def headerBytes (p : Packet) : List UInt8 :=
  [UInt8.ofNat p.payload.length, p.header.sequence, p.header.system, p.header.component,
    p.messageId]

/-- The checksum of the packet, ended with the code that the table has for its message. -/
def checksumUnder (p : Packet) (t : Table) : Checksum :=
  (Checksum.start.updateAll (p.headerBytes ++ p.payload)).finish p.messageId t

/-- The checksum of a packet whose payload fits a one-byte length. -/
def checksum (p : Packet) (t : Table) : Except Fault Checksum :=
  if p.payload.length < 256 then .ok (p.checksumUnder t)
  else .error (.payloadTooLong p.payload.length)

/-- The packet on the wire. -/
def encode (p : Packet) (t : Table) : Except Fault (List UInt8) := do
  let crc ← p.checksum t
  return startByte :: (p.headerBytes ++ p.payload ++ [crc.low, crc.high])

end Packet

/-- A packet cut off the front of some bytes, with the checksum it carries, not yet checked. -/
structure Cut where
  packet : Packet
  received : UInt16
  deriving DecidableEq, Repr

/-- The number whose low and high byte are given. -/
def word (low high : UInt8) : UInt16 := low.toUInt16 ||| (high.toUInt16 <<< 8)

/-- Cuts a packet off the front of some bytes. As long as the length byte may still be missing, the
length of a packet without payload is asked for. -/
def cut (bytes : List UInt8) : Except Fault Cut :=
  match bytes with
  | [] => .error (.truncated (headerLength + checksumLength) 0)
  | first :: behind =>
    if first ≠ startByte then .error (.badStart first)
    else
      match behind with
      | length :: sequence :: system :: component :: id :: body =>
        match body.drop length.toNat with
        | low :: high :: _ =>
          .ok ⟨⟨⟨sequence, system, component⟩, id, body.take length.toNat⟩, word low high⟩
        | _ => .error (.truncated (headerLength + length.toNat + checksumLength) bytes.length)
      | _ => .error (.truncated (headerLength + checksumLength) bytes.length)

/-- Reads a packet at the front of some bytes; the second part of the answer is its length there. -/
def Packet.decode (bytes : List UInt8) (t : Table) : Except Fault (Packet × Nat) := do
  let c ← cut bytes
  let computed ← c.packet.checksum t
  if c.received = computed.value then return (c.packet, c.packet.frameLength)
  else throw (.checksumMismatch c.received computed.value)

/-- The packet, on the wire, of the message with the given name and values. -/
def encodeMessage (codec : Codec) (t : Table) (header : Header) (name : String) (values : Values) :
    Except Fault (List UInt8) :=
  match codec.message? name with
  | none => .error (.payload (.unknownMessage name))
  | some m => do
    let payload ← (Payload.pack codec.order m values).mapError Fault.payload
    Packet.encode ⟨header, m.id, payload⟩ t

end Dialect.Frame
