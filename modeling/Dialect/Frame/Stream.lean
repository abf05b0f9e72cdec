import Dialect.Frame.Packet

/-!
# Streams

All packets in a run of bytes. Bytes that cannot begin a packet are skipped. A packet of an unknown
message and one whose payload does not unpack are passed over whole and reported; after a wrong
checksum, or without any to compare with, only the start byte is passed over, since the length
itself may be wrong. Decoding ends at a packet that is not complete yet.
-/

namespace Dialect.Frame

open Dialect.Payload (Codec Values)
open Dialect.Schema (Message Table)

/-- A message that was decoded, and the bytes it was found in. -/
structure Delivered where
  name : String
  header : Header
  values : Values
  start : Nat
  stop : Nat
  deriving Repr

/-- Why a complete packet was not delivered. -/
inductive Reason where
  | unknownMessage (id : UInt8)
  | checksumMismatch (received computed : UInt16)
  | payload (fault : Payload.Fault)
  deriving DecidableEq, Repr

/-- The wording of a reason. -/
def Reason.message : Reason → String
  | .unknownMessage id => (Fault.unknownMessage id).message
  | .checksumMismatch received computed => (Fault.checksumMismatch received computed).message
  | .payload fault => fault.message

/-- A complete packet that was not delivered, and the bytes it was found in. -/
structure Removed where
  messageId : UInt8
  start : Nat
  stop : Nat
  reason : Reason
  deriving DecidableEq, Repr

/-- What a run of bytes holds. -/
structure Decoded where
  messages : List Delivered := []
  removed : List Removed := []
  /-- The number of bytes passed over in search of a start byte. -/
  skipped : Nat := 0
  /-- The number of bytes of an incomplete packet at the end. -/
  remainder : Nat := 0
  deriving Repr

namespace Decoded

/-- One more byte was skipped in front. -/
def skip (d : Decoded) : Decoded := { d with skipped := d.skipped + 1 }

/-- One more message was delivered in front. -/
def deliver (m : Delivered) (d : Decoded) : Decoded := { d with messages := m :: d.messages }

/-- One more packet was removed in front. -/
def remove (r : Removed) (d : Decoded) : Decoded := { d with removed := r :: d.removed }

end Decoded

/-- What is made of a packet that was cut off a stream. -/
inductive Verdict where
  | delivered (name : String) (values : Values)
  | removed (reason : Reason)
  /-- The packet has no checksum to compare with. Nothing is reported. -/
  | unchecked (fault : Fault)
  deriving Repr

/-- Judges a packet that was cut off a stream: first its id, then its checksum, then its payload. -/
def judge (codec : Codec) (t : Table) (c : Cut) : Verdict :=
  match codec.messageById? c.packet.messageId with
  | none => .removed (.unknownMessage c.packet.messageId)
  | some m =>
    match c.packet.checksum t with
    | .error fault => .unchecked fault
    | .ok crc =>
      if c.received ≠ crc.value then .removed (.checksumMismatch c.received crc.value)
      else
        match Payload.unpack codec.order m c.packet.payload with
        | .ok values => .delivered m.name values
        | .error fault => .removed (.payload fault)

/-- Decodes bytes of which the first stands at `offset` in the stream. -/
def decodeFrom (codec : Codec) (t : Table) (offset : Nat) : List UInt8 → Decoded
  | [] => {}
  | b :: rest =>
    if b ≠ startByte then (decodeFrom codec t (offset + 1) rest).skip
    else
      match cut (b :: rest) with
      | .error _ => { remainder := rest.length + 1 }
      | .ok c =>
        let total := c.packet.frameLength
        let behind := rest.drop (total - 1)
        match judge codec t c with
        | .delivered name values =>
          (decodeFrom codec t (offset + total) behind).deliver
            ⟨name, c.packet.header, values, offset, offset + total⟩
        | .removed reason =>
          let entry : Removed := ⟨c.packet.messageId, offset, offset + total, reason⟩
          match reason with
          | .checksumMismatch _ _ => (decodeFrom codec t (offset + 1) rest).remove entry
          | _ => (decodeFrom codec t (offset + total) behind).remove entry
        | .unchecked _ => decodeFrom codec t (offset + 1) rest
termination_by bytes => bytes.length
decreasing_by all_goals simp only [List.length_drop, List.length_cons]; omega

/-- Decodes a run of bytes. -/
def decodeStream (codec : Codec) (t : Table) (bytes : List UInt8) : Decoded :=
  decodeFrom codec t 0 bytes

end Dialect.Frame
