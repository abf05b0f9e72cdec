import Dialect.Proofs.Frame.Cut
import Dialect.Proofs.Schema.ShiftRegister

/-!
# Reading packets back

A packet is read where its bytes stand in front and carry the right checksum
(`Packet.decode_eq_ok_iff`), so reading and sending say the same. The code of the message is the
last byte under the checksum. A receiver whose table has another code for the message computes
another checksum, whatever the payload is.
-/

namespace Dialect.Frame

open Dialect.Schema (Checksum Table)

/-- The last step of a checksum is that of the code of the message. -/
theorem Packet.checksumUnder_value (p : Packet) (t : Table) :
    (p.checksumUnder t).value =
      Checksum.step (Checksum.accumulate Checksum.seed (p.headerBytes ++ p.payload))
        (t.code p.messageId) :=
  rfl

/-- Two tables lead to the same checksum only if they have the same code for the message. -/
theorem Packet.checksumUnder_value_inj {p : Packet} {t₁ t₂ : Table} :
    (p.checksumUnder t₁).value = (p.checksumUnder t₂).value ↔
      t₁.code p.messageId = t₂.code p.messageId := by
  constructor
  · intro h
    rw [checksumUnder_value, checksumUnder_value] at h
    exact Checksum.step_injective_right _ h
  · intro h
    rw [checksumUnder_value, checksumUnder_value, h]

/-- It is the checksum that decides on a packet that was cut off. -/
theorem Packet.decode_of_cut {bytes : List UInt8} {c : Cut} (h : cut bytes = .ok c) (t : Table) :
    Packet.decode bytes t =
      if c.received = (c.packet.checksumUnder t).value then .ok (c.packet, c.packet.frameLength)
      else .error (.checksumMismatch c.received (c.packet.checksumUnder t).value) := by
  have hchecksum := checksum_of_complete (cut_eq_ok_iff.mp h).1 t
  simp only [Packet.decode, h, hchecksum, bind, Except.bind]
  rfl

/-- A packet is read exactly if it stands in front with its checksum. -/
theorem Packet.decode_eq_ok_iff {bytes : List UInt8} {t : Table} {p : Packet} {n : Nat} :
    Packet.decode bytes t = .ok (p, n) ↔
      n = p.frameLength ∧ cut bytes = .ok ⟨p, (p.checksumUnder t).value⟩ := by
  constructor
  · intro h
    obtain ⟨c, hc, -⟩ := bind_eq_ok_iff.mp h
    rw [decode_of_cut hc] at h
    split at h
    · next heq =>
      obtain ⟨rfl, rfl⟩ := Prod.mk.inj (Except.ok.inj h)
      exact ⟨rfl, heq ▸ hc⟩
    · exact absurd h (by simp)
  · rintro ⟨rfl, hc⟩
    rw [decode_of_cut hc]
    exact if_pos rfl

/-- Without its first byte and its last two, a packet is what its checksum covers. -/
theorem Cut.drop_take_bytes (c : Cut) :
    (c.bytes.take (c.bytes.length - 2)).drop 1 = c.packet.headerBytes ++ c.packet.payload ∧
      c.bytes.drop (c.bytes.length - 2) = [c.received.toUInt8, (c.received >>> 8).toUInt8] := by
  have hlength : c.bytes.length - 2 =
      ([startByte] ++ (c.packet.headerBytes ++ c.packet.payload)).length := by
    rw [bytes_eq_append, List.length_append]
    rfl
  rw [hlength, bytes_eq_append, List.take_left, List.drop_left]
  exact ⟨rfl, rfl⟩

/-! ## Reading what was sent -/

/-- A packet is read from the first bytes exactly if these are what is sent for it. -/
theorem Packet.decode_eq_ok_iff_take {bytes : List UInt8} {t : Table} {p : Packet} {n : Nat} :
    Packet.decode bytes t = .ok (p, n) ↔ n ≤ bytes.length ∧ p.encode t = .ok (bytes.take n) := by
  rw [decode_eq_ok_iff, encode_eq_ok_iff, cut_eq_ok_iff]
  have hlength := Cut.length_bytes ⟨p, (p.checksumUnder t).value⟩
  constructor
  · rintro ⟨rfl, hfits, hfront⟩
    rw [← hlength]
    exact ⟨hfront.length_le, hfits, (List.prefix_iff_eq_take.mp hfront).symm⟩
  · rintro ⟨hle, hfits, htake⟩
    rw [← htake, List.length_take, Nat.min_eq_left hle] at hlength
    exact ⟨hlength, hfits, htake ▸ List.take_prefix n bytes⟩

/-- What is sent ends with the checksum of what stands in front of it and of the code. -/
theorem Packet.drop_of_encode {t : Table} {p : Packet} {frame : List UInt8}
    (h : p.encode t = .ok frame) :
    let covered := (frame.take (frame.length - 2)).drop 1
    let crc := Checksum.accumulate 0xFFFF (covered ++ [t.code p.messageId])
    frame.drop (frame.length - 2) = [crc.toUInt8, (crc >>> 8).toUInt8] := by
  obtain ⟨-, rfl⟩ := encode_eq_ok_iff.mp h
  obtain ⟨hcovered, hchecksum⟩ := Cut.drop_take_bytes ⟨p, (p.checksumUnder t).value⟩
  intro covered crc
  have hcrc : crc = (p.checksumUnder t).value := by
    rw [checksumUnder_value, ← hcovered]
    exact Checksum.accumulate_append _ covered [t.code p.messageId]
  rw [hchecksum, hcrc]

/-- A packet can be sent exactly if a byte can hold the length of its payload. -/
theorem Packet.exists_encode_iff {p : Packet} {t : Table} :
    (∃ frame, p.encode t = .ok frame) ↔ p.payload.length ≤ 255 := by
  constructor
  · rintro ⟨frame, h⟩
    exact Nat.le_of_lt_succ (encode_eq_ok_iff.mp h).1
  · intro h
    exact ⟨_, encode_eq_ok_iff.mpr ⟨Nat.lt_succ_of_le h, rfl⟩⟩

/-- **Reading is sending turned round.** A packet is read from the first `n` bytes exactly if these
are what is sent for it. The last two bytes of what is sent, low byte first, are the checksum of the
bytes between the start byte and them and of the code of the message. And every packet can be sent
whose payload is no longer than one byte can say. -/
theorem decode_eq_ok_iff_encode (p : Packet) (t : Table) :
    (∀ (bytes : List UInt8) (n : Nat), Packet.decode bytes t = .ok (p, n) ↔
      n ≤ bytes.length ∧ p.encode t = .ok (bytes.take n)) ∧
    (∀ frame : List UInt8, p.encode t = .ok frame →
      let covered := (frame.take (frame.length - 2)).drop 1
      let crc := Checksum.accumulate 0xFFFF (covered ++ [t.code p.messageId])
      frame.drop (frame.length - 2) = [crc.toUInt8, (crc >>> 8).toUInt8]) ∧
    ((∃ frame, p.encode t = .ok frame) ↔ p.payload.length ≤ 255) :=
  ⟨fun _ _ => Packet.decode_eq_ok_iff_take, fun _ h => Packet.drop_of_encode h,
    Packet.exists_encode_iff⟩

/-- A packet whose payload looks like the start of another one. -/
def samplePacket : Packet := ⟨⟨1, 2, 3⟩, 7, [255, 254]⟩

/-- A table with the given code for it. -/
def tableWith (code : UInt8) : Table := ⟨[⟨7, "SAMPLE", code⟩]⟩

/-- A packet of a known code, and the checksum that it ends with. -/
theorem decode_eq_ok_iff_encode_sample :
    samplePacket.encode (tableWith 90) = .ok [254, 2, 1, 2, 3, 7, 255, 254, 185, 119] ∧
      (∃ crc, crc = Checksum.accumulate 0xFFFF [2, 1, 2, 3, 7, 255, 254, 90] ∧
        [crc.toUInt8, (crc >>> 8).toUInt8] = [185, 119]) ∧
      Packet.decode [254, 2, 1, 2, 3, 7, 255, 254, 185, 119, 254] (tableWith 90) =
        .ok (samplePacket, 10) := by
  obtain ⟨hiff, hlast, -⟩ := decode_eq_ok_iff_encode samplePacket (tableWith 90)
  have hframe : samplePacket.encode (tableWith 90) =
      .ok [254, 2, 1, 2, 3, 7, 255, 254, 185, 119] := rfl
  exact ⟨hframe, ⟨_, rfl, (hlast _ hframe).symm⟩, (hiff _ 10).mpr ⟨by decide, hframe⟩⟩

/-! ## Reading under another table -/

/-- What was sent under one table is read under another exactly if both have the same code. -/
theorem Packet.decode_append_of_encode {t₁ : Table} {p : Packet} {frame : List UInt8}
    (h : p.encode t₁ = .ok frame) (t₂ : Table) (rest : List UInt8) :
    Packet.decode (frame ++ rest) t₂ =
      if t₁.code p.messageId = t₂.code p.messageId then .ok (p, frame.length)
      else .error
        (.checksumMismatch (p.checksumUnder t₁).value (p.checksumUnder t₂).value) := by
  obtain ⟨hfits, rfl⟩ := encode_eq_ok_iff.mp h
  have hc : (Cut.mk p (p.checksumUnder t₁).value).Complete := hfits
  rw [decode_of_cut (cut_bytes_append hc rest), Cut.length_bytes]
  exact if_congr checksumUnder_value_inj rfl rfl

/-- Bytes that can be read under two tables are read alike, and the tables agree on the code. -/
theorem Packet.code_eq_of_decode {bytes : List UInt8} {t₁ t₂ : Table} {r₁ r₂ : Packet × Nat}
    (h₁ : Packet.decode bytes t₁ = .ok r₁) (h₂ : Packet.decode bytes t₂ = .ok r₂) :
    r₁ = r₂ ∧ t₁.code r₁.1.messageId = t₂.code r₁.1.messageId := by
  obtain ⟨p₁, n₁⟩ := r₁
  obtain ⟨p₂, n₂⟩ := r₂
  obtain ⟨rfl, hc₁⟩ := decode_eq_ok_iff.mp h₁
  obtain ⟨rfl, hc₂⟩ := decode_eq_ok_iff.mp h₂
  -- what is cut off does not depend on the table, nor does the checksum it carries
  obtain ⟨rfl, hsame⟩ := Cut.mk.inj (Except.ok.inj (hc₁.symm.trans hc₂))
  exact ⟨rfl, checksumUnder_value_inj.mp hsame⟩

/-- **Another layout is always noticed.** Let a packet be sent under one table and read, with any
bytes behind it, under another. Where the tables have the same code for its message, it is read back
whole; where they do not, it is refused for its checksum, which is then different from the one it
carries. So no bytes at all pass under two different codes. -/
theorem decode_encode_append (t₁ t₂ : Table) :
    (∀ (p : Packet) (rest : List UInt8), p.payload.length ≤ 255 →
      ∃ frame sent expected, p.encode t₁ = .ok frame ∧ p.checksum t₁ = .ok sent ∧
        p.checksum t₂ = .ok expected ∧
        (t₁.code p.messageId = t₂.code p.messageId →
          Packet.decode (frame ++ rest) t₂ = .ok (p, frame.length)) ∧
        (t₁.code p.messageId ≠ t₂.code p.messageId →
          sent.value ≠ expected.value ∧ Packet.decode (frame ++ rest) t₂ =
            .error (.checksumMismatch sent.value expected.value))) ∧
    (∀ (bytes : List UInt8) (r₁ r₂ : Packet × Nat), Packet.decode bytes t₁ = .ok r₁ →
      Packet.decode bytes t₂ = .ok r₂ →
        r₁ = r₂ ∧ t₁.code r₁.1.messageId = t₂.code r₁.1.messageId) := by
  refine ⟨fun p rest hfits => ?_, fun bytes r₁ r₂ => Packet.code_eq_of_decode⟩
  obtain ⟨frame, hframe⟩ := Packet.exists_encode_iff.mpr hfits
  have hread := Packet.decode_append_of_encode hframe t₂ rest
  have hchecksum : ∀ t : Table, p.checksum t = .ok (p.checksumUnder t) := fun t =>
    if_pos (Nat.lt_succ_of_le hfits)
  refine ⟨frame, _, _, hframe, hchecksum t₁, hchecksum t₂, fun hsame => ?_, fun hother => ?_⟩
  · rw [hread, if_pos hsame]
  · exact ⟨mt Packet.checksumUnder_value_inj.mp hother, by rw [hread, if_neg hother]⟩

/-- The same packet under two codes, and under the same code of another message. -/
theorem decode_encode_append_sample :
    samplePacket.payload.length ≤ 255 ∧
      Packet.decode [254, 2, 1, 2, 3, 7, 255, 254, 185, 119, 254] (tableWith 91) =
        .error (.checksumMismatch 30649 26160) ∧
      Packet.decode [254, 2, 1, 2, 3, 7, 255, 254, 185, 119, 254] ⟨[⟨7, "OTHER", 90⟩]⟩ =
        .ok (samplePacket, 10) ∧
      (tableWith 90).code 7 = (Table.mk [⟨7, "OTHER", 90⟩]).code 7 := by
  have hfits : samplePacket.payload.length ≤ 255 := by decide
  have hframe : samplePacket.encode (tableWith 90) =
      .ok [254, 2, 1, 2, 3, 7, 255, 254, 185, 119] := rfl
  refine ⟨hfits, ?_, ?_, ?_⟩
  · obtain ⟨frame, sent, expected, hsent, hcrc, hother, -, hmismatch⟩ :=
      (decode_encode_append (tableWith 90) (tableWith 91)).1 samplePacket [254] hfits
    obtain rfl := Except.ok.inj (hframe.symm.trans hsent)
    have h := (hmismatch (by decide)).2
    rw [← Except.ok.inj hcrc, ← Except.ok.inj hother] at h
    exact h
  · obtain ⟨frame, sent, expected, hsent, -, -, hsame, -⟩ :=
      (decode_encode_append (tableWith 90) ⟨[⟨7, "OTHER", 90⟩]⟩).1 samplePacket [254] hfits
    obtain rfl := Except.ok.inj (hframe.symm.trans hsent)
    exact hsame rfl
  · exact ((decode_encode_append (tableWith 90) ⟨[⟨7, "OTHER", 90⟩]⟩).2
      [254, 2, 1, 2, 3, 7, 255, 254, 185, 119] (samplePacket, 10) (samplePacket, 10) rfl rfl).2

end Dialect.Frame
