import Dialect.Proofs.Frame.Decode
import Dialect.Proofs.Schema.Burst

/-!
# Bursts of errors in packets

Errors that spare the start byte, the length and the id of a packet leave its outline alone: what is
cut off is a packet of the same message and length (`Cut.exists_bytes_eq_of_sender`,
`Cut.exists_bytes_eq_of_payload`, `Cut.exists_bytes_eq_of_checksum`). A burst within sixteen bits of
one of these parts changes either the checksum that is computed or the one it is compared with, and
the other stays what it was. So no such packet is accepted.
-/

namespace Dialect.Frame

open Dialect.Schema (Checksum DifferWithin Table)
open Dialect.Schema.Checksum (bits)

namespace Cut

variable {c : Cut} {bytes : List UInt8} {t : Table}

/-- Errors in who sent a packet, and in its place in the sequence. -/
theorem exists_bytes_eq_of_sender (h : DifferWithin c.bytes bytes 2 5)
    (hlength : bytes.length = c.bytes.length) :
    ∃ header, bytes = (Cut.mk ⟨header, c.packet.messageId, c.packet.payload⟩ c.received).bytes := by
  obtain ⟨⟨⟨sequence, system, component⟩, id, payload⟩, received⟩ := c
  have hsplit : DifferWithin ([startByte, UInt8.ofNat payload.length] ++
      [sequence, system, component] ++
        (id :: (payload ++ [received.toUInt8, (received >>> 8).toUInt8]))) bytes 2 5 := h
  obtain ⟨mid, hmid, rfl⟩ := hsplit.exists_eq_append hlength
  obtain ⟨sequence', system', component', rfl⟩ := List.length_eq_three.mp hmid
  exact ⟨⟨sequence', system', component'⟩, rfl⟩

/-- Errors in the payload. -/
theorem exists_bytes_eq_of_payload
    (h : DifferWithin c.bytes bytes headerLength (headerLength + c.packet.payload.length))
    (hlength : bytes.length = c.bytes.length) :
    ∃ payload, payload.length = c.packet.payload.length ∧
      bytes = (Cut.mk ⟨c.packet.header, c.packet.messageId, payload⟩ c.received).bytes := by
  have hsplit : DifferWithin ((startByte :: c.packet.headerBytes) ++ c.packet.payload ++
      [c.received.toUInt8, (c.received >>> 8).toUInt8]) bytes headerLength
        (headerLength + c.packet.payload.length) := h
  obtain ⟨payload, hpayload, rfl⟩ := hsplit.exists_eq_append hlength
  refine ⟨payload, hpayload, ?_⟩
  rw [Cut.bytes, Packet.headerBytes, Packet.headerBytes, hpayload]
  rfl

/-- Errors in the checksum. -/
theorem exists_bytes_eq_of_checksum
    (h : DifferWithin c.bytes bytes (headerLength + c.packet.payload.length)
      (headerLength + c.packet.payload.length + checksumLength))
    (hlength : bytes.length = c.bytes.length) :
    ∃ received, bytes = (Cut.mk c.packet received).bytes := by
  have hfront : headerLength + c.packet.payload.length =
      ([startByte] ++ (c.packet.headerBytes ++ c.packet.payload)).length := by
    rw [← List.append_assoc, List.length_append]
    rfl
  rw [hfront, c.bytes_eq_append, ← List.append_nil (_ ++ _)] at h
  rw [c.bytes_eq_append, ← List.append_nil (_ ++ _)] at hlength
  obtain ⟨mid, hmid, rfl⟩ := h.exists_eq_append hlength
  obtain ⟨low, high, rfl⟩ := List.length_eq_two.mp hmid
  refine ⟨word low high, ?_⟩
  rw [Cut.bytes, low_word, high_word, List.append_nil]
  rfl

/-- The bits of a packet, in the three regions that a burst may lie in. -/
theorem bits_bytes (c : Cut) :
    bits c.bytes = bits [startByte] ++ bits (c.packet.headerBytes ++ c.packet.payload) ++
      bits [c.received.toUInt8, (c.received >>> 8).toUInt8] := by
  rw [bytes_eq_append, Checksum.bits_append, Checksum.bits_append]

/-- A burst of errors in front of the checksum that leaves the outline alone leads to another
checksum. -/
theorem checksumUnder_value_ne {c' : Cut} {start : Nat}
    (hwindow : DifferWithin (bits c.bytes) (bits c'.bytes) start (start + 16))
    (hid : c'.packet.messageId = c.packet.messageId)
    (hlength : c'.packet.payload.length = c.packet.payload.length)
    (hreceived : c'.received = c.received) (hne : c'.bytes ≠ c.bytes) (t : Table) :
    (c.packet.checksumUnder t).value ≠ (c'.packet.checksumUnder t).value := by
  intro h
  rw [Packet.checksumUnder_value, Packet.checksumUnder_value, hid] at h
  have hstate := Checksum.step_injective_left _ h
  have hcovered : (c.packet.headerBytes ++ c.packet.payload).length =
      (c'.packet.headerBytes ++ c'.packet.payload).length := by
    rw [List.length_append, List.length_append, hlength]
    rfl
  -- the start byte and the checksum are the same, so the window can be taken to be between them
  rw [bits_bytes, bits_bytes, hreceived] at hwindow
  have hinside := hwindow.of_append (by rw [Checksum.length_bits, Checksum.length_bits, hcovered])
  have hmark : (bits [startByte]).length = 8 := rfl
  rw [hmark] at hinside
  have hsame := Checksum.accumulate_inj_of_differWithin hcovered
    (hinside.mono (Nat.le_refl (start - 8)) (by omega)) hstate
  exact hne (by rw [Cut.bytes, Cut.bytes, hsame, hreceived])

/-- After a burst of errors in one part of a packet, what is cut off carries a wrong checksum. -/
theorem exists_received_ne_of_burst (hcomplete : c.Complete)
    (hreceived : c.received = (c.packet.checksumUnder t).value)
    (hlength : bytes.length = c.bytes.length) (hne : bytes ≠ c.bytes) {start : Nat}
    (hwindow : DifferWithin (bits c.bytes) (bits bytes) start (start + 16))
    (hpart : DifferWithin c.bytes bytes 2 5 ∨
      DifferWithin c.bytes bytes headerLength (headerLength + c.packet.payload.length) ∨
      DifferWithin c.bytes bytes (headerLength + c.packet.payload.length)
        (headerLength + c.packet.payload.length + checksumLength)) :
    ∃ c' : Cut, c'.Complete ∧ bytes = c'.bytes ∧
      c'.received ≠ (c'.packet.checksumUnder t).value := by
  -- errors under the checksum leave the one the packet carries, and errors in it the one computed
  rcases hpart with hsender | hpayload | hchecksum
  · obtain ⟨header, rfl⟩ := exists_bytes_eq_of_sender hsender hlength
    have hother := checksumUnder_value_ne hwindow rfl rfl rfl hne t
    exact ⟨⟨⟨header, c.packet.messageId, c.packet.payload⟩, c.received⟩, hcomplete, rfl,
      hreceived ▸ hother⟩
  · obtain ⟨payload, hsame, rfl⟩ := exists_bytes_eq_of_payload hpayload hlength
    have hother := checksumUnder_value_ne hwindow rfl hsame rfl hne t
    have hcomplete' : payload.length < 256 := hsame ▸ hcomplete
    exact ⟨⟨⟨c.packet.header, c.packet.messageId, payload⟩, c.received⟩, hcomplete', rfl,
      hreceived ▸ hother⟩
  · obtain ⟨received, rfl⟩ := exists_bytes_eq_of_checksum hchecksum hlength
    refine ⟨⟨c.packet, received⟩, hcomplete, rfl, ?_⟩
    intro h
    have hsame : received = c.received := h.trans hreceived.symm
    exact hne (by rw [hsame])

end Cut

/-- **Bursts of errors are noticed.** Let a packet be sent, and let some of its bits arrive wrong,
all of them within a window of sixteen bits, the lowest bit of each byte first. If they are all
among those that say who sent it and when, all in the payload or all in the checksum, then what
arrives is refused for its checksum. -/
theorem decode_eq_error_of_burst (p : Packet) (t : Table) (hfits : p.payload.length ≤ 255) :
    ∃ frame, p.encode t = .ok frame ∧
      ∀ (bytes : List UInt8) (start : Nat), bytes.length = frame.length → bytes ≠ frame →
        DifferWithin (bits frame) (bits bytes) start (start + 16) →
        (DifferWithin (bits frame) (bits bytes) (8 * 2) (8 * 5) ∨
          DifferWithin (bits frame) (bits bytes) (8 * 6) (8 * (6 + p.payload.length)) ∨
          DifferWithin (bits frame) (bits bytes) (8 * (6 + p.payload.length))
            (8 * (6 + p.payload.length + 2))) →
        ∃ received computed, received ≠ computed ∧
          Packet.decode bytes t = .error (.checksumMismatch received computed) := by
  let c : Cut := ⟨p, (p.checksumUnder t).value⟩
  have hcomplete : c.Complete := Nat.lt_succ_of_le hfits
  refine ⟨c.bytes, Packet.encode_eq_ok_iff.mpr ⟨hcomplete, rfl⟩, ?_⟩
  intro bytes start hlength hne hwindow hpart
  have hparts := hpart.imp Checksum.differWithin_of_bits
    (Or.imp Checksum.differWithin_of_bits Checksum.differWithin_of_bits)
  obtain ⟨c', hcomplete', rfl, hmismatch⟩ :=
    Cut.exists_received_ne_of_burst hcomplete rfl hlength hne hwindow hparts
  have hcut : cut c'.bytes = .ok c' := cut_eq_ok_iff.mpr ⟨hcomplete', List.prefix_refl _⟩
  exact ⟨_, _, hmismatch, (Packet.decode_of_cut hcut t).trans (if_neg hmismatch)⟩

/-- Sixteen wrong bits over three bytes of who sent a packet. -/
theorem decode_eq_error_of_burst_sample :
    let frame := [254, 2, 1, 2, 3, 7, 255, 254, 185, 119]
    let bytes := [254, 2, 241, 253, 12, 7, 255, 254, 185, 119]
    samplePacket.payload.length ≤ 255 ∧ bytes.length = frame.length ∧ bytes ≠ frame ∧
      DifferWithin (bits frame) (bits bytes) 20 36 ∧
      DifferWithin (bits frame) (bits bytes) (8 * 2) (8 * 5) ∧
      ∃ received computed, received ≠ computed ∧
        Packet.decode bytes (tableWith 90) = .error (.checksumMismatch received computed) := by
  intro frame bytes
  have hfits : samplePacket.payload.length ≤ 255 := by decide
  have hne : bytes ≠ frame := by decide
  have hwindow : DifferWithin (bits frame) (bits bytes) 20 36 := by decide
  have hpart : DifferWithin (bits frame) (bits bytes) (8 * 2) (8 * 5) := by decide
  obtain ⟨sent, hsent, hburst⟩ := decode_eq_error_of_burst samplePacket (tableWith 90) hfits
  have hframe : samplePacket.encode (tableWith 90) = .ok frame := rfl
  obtain rfl := Except.ok.inj (hframe.symm.trans hsent)
  exact ⟨hfits, rfl, hne, hwindow, hpart, hburst bytes 20 rfl hne hwindow (.inl hpart)⟩

end Dialect.Frame
