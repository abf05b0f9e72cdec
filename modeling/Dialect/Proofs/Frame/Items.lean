import Dialect.Proofs.Frame.Turn
import Dialect.Proofs.Payload.RoundTrip

/-!
# Streams of known composition

A stream put together of packets of the codec, packets that are wrong in one way or another and
bytes between them (`Item`) is taken apart again into just these: each packet of the codec is
delivered with the values it was made of, each other packet is reported once, and the bytes between
are counted. So no item costs the receiver another one.
-/

namespace Dialect.Frame

open Dialect.Payload (Codec Values decodedForm)
open Dialect.Schema (Message Table)

/-- A stretch of a stream. -/
inductive Item where
  /-- The packet of a message with the given values. -/
  | message (m : Message) (header : Header) (values : Values) (bytes : List UInt8)
  /-- Bytes that begin no packet. -/
  | noise (bytes : List UInt8)
  /-- A packet of a message that the codec does not have. -/
  | unknown (c : Cut)
  /-- A packet with a wrong checksum. -/
  | corrupt (c : Cut)
  /-- A packet with a right checksum around a payload that cannot be read. -/
  | unreadable (c : Cut) (fault : Payload.Fault)

namespace Item

/-- The bytes of the stretch. -/
def bytes : Item → List UInt8
  | message _ _ _ bytes | noise bytes => bytes
  | unknown c | corrupt c | unreadable c _ => c.bytes

/-- The bytes are such as the item says. A packet with a wrong checksum must not have a start byte
inside: decoding goes on behind its first byte, since its length may be wrong. -/
def Genuine (codec : Codec) (t : Table) : Item → Prop
  | message m header values bytes =>
    codec.message? m.name = some m ∧ encodeMessage codec t header m.name values = .ok bytes
  | noise bytes => startByte ∉ bytes
  | unknown c => c.Complete ∧ codec.messageById? c.packet.messageId = none
  | corrupt c =>
    c.Complete ∧ codec.messageById? c.packet.messageId ≠ none ∧
      c.received ≠ (c.packet.checksumUnder t).value ∧ startByte ∉ c.bytes.tail
  | unreadable c fault =>
    c.Complete ∧ c.received = (c.packet.checksumUnder t).value ∧
      ∃ m, codec.messageById? c.packet.messageId = some m ∧
        Payload.unpack codec.order m c.packet.payload = .error fault

/-- The message delivered for an item whose bytes begin at `offset`. -/
def delivered? (offset : Nat) : Item → Option Delivered
  | message m header values bytes =>
    some ⟨m.name, header, decodedForm m values, offset, offset + bytes.length⟩
  | _ => none

/-- The entry for an item that is not delivered, whose bytes begin at `offset`. -/
def removed? (t : Table) (offset : Nat) : Item → Option Removed
  | unknown c =>
    some ⟨c.packet.messageId, offset, offset + c.bytes.length,
      .unknownMessage c.packet.messageId⟩
  | corrupt c =>
    some ⟨c.packet.messageId, offset, offset + c.bytes.length,
      .checksumMismatch c.received (c.packet.checksumUnder t).value⟩
  | unreadable c fault =>
    some ⟨c.packet.messageId, offset, offset + c.bytes.length, .payload fault⟩
  | _ => none

/-- The number of bytes of an item that are passed over in search of a start byte. -/
def skipped : Item → Nat
  | noise bytes => bytes.length
  | corrupt c => c.bytes.length - 1
  | _ => 0

/-- All that is reported on an item whose bytes begin at `offset`. -/
def report (t : Table) (offset : Nat) (item : Item) : Decoded where
  messages := (item.delivered? offset).toList
  removed := (item.removed? t offset).toList
  skipped := item.skipped

end Item

/-- What is taken from a list is what is taken from its first member, and then from the others. -/
theorem filterMap_cons_eq_append {α β : Type} (f : α → Option β) (a : α) (as : List α) :
    (a :: as).filterMap f = (f a).toList ++ as.filterMap f := by
  rw [List.filterMap_cons]
  cases f a <;> rfl

/-- Items one behind the other, each with the place where its bytes begin. -/
def placed (offset : Nat) : List Item → List (Nat × Item)
  | [] => []
  | item :: rest => (offset, item) :: placed (offset + item.bytes.length) rest

variable {codec : Codec} {t : Table}

/-- Where no two messages have the same id, each is found by its own. -/
theorem messageById?_id (hids : (codec.messages.map Message.id).Nodup) {m : Message}
    (hm : m ∈ codec.messages) : codec.messageById? m.id = some m := by
  rw [Codec.messageById?]
  generalize codec.messages = messages at hids hm
  induction messages with
  | nil => exact absurd hm (by simp)
  | cons first rest ih =>
    rw [List.map_cons, List.nodup_cons] at hids
    rcases List.mem_cons.mp hm with rfl | hm
    · exact List.find?_cons_of_pos (by simp)
    · have hne : first.id ≠ m.id := fun h => hids.1 (h ▸ List.mem_map_of_mem hm)
      rw [List.find?_cons_of_neg (by simpa using hne)]
      exact ih hids.2 hm

/-! ## Single packets -/

/-- What was framed is the packet of a packed payload, with its checksum. -/
theorem exists_cut_of_encodeMessage {m : Message} {header : Header} {name : String}
    {values : Values} {bytes : List UInt8} (hm : codec.message? name = some m)
    (h : encodeMessage codec t header name values = .ok bytes) :
    ∃ c : Cut, c.Complete ∧ bytes = c.bytes ∧ c.packet.header = header ∧
      c.packet.messageId = m.id ∧ c.received = (c.packet.checksumUnder t).value ∧
      Payload.pack codec.order m values = .ok c.packet.payload := by
  rw [encodeMessage, hm] at h
  obtain ⟨payload, hpack, h⟩ := bind_eq_ok_iff.mp h
  obtain ⟨hfits, rfl⟩ := Packet.encode_eq_ok_iff.mp h
  exact ⟨⟨⟨header, m.id, payload⟩, _⟩, hfits, rfl, rfl, rfl, rfl, mapError_eq_ok_iff.mp hpack⟩

/-- Decoding passes over a packet as a whole unless its checksum is wrong. -/
theorem decodeFrom_bytes_append {c : Cut} (hc : c.Complete) {v : Verdict}
    (hv : judge codec t c = v) (hwhole : (Turn.ofVerdict c v).length = c.packet.frameLength)
    (offset : Nat) (rest : List UInt8) :
    decodeFrom codec t offset (c.bytes ++ rest) =
      ((Turn.ofVerdict c v).report.shift offset).followedBy
        (decodeFrom codec t (offset + c.bytes.length) rest) := by
  have hturn : turn codec t (c.bytes ++ rest) = some (Turn.ofVerdict c v) :=
    hv ▸ turn_of_cut (cut_bytes_append hc rest)
  rw [decodeFrom_of_turn_eq_some hturn, hwhole, ← Cut.length_bytes, List.drop_left]

/-- Bytes that begin no packet are counted one by one. -/
theorem decodeFrom_noise_append {bytes : List UInt8} (h : startByte ∉ bytes) (offset : Nat)
    (rest : List UInt8) :
    decodeFrom codec t offset (bytes ++ rest) =
      Decoded.followedBy { skipped := bytes.length }
        (decodeFrom codec t (offset + bytes.length) rest) := by
  induction bytes generalizing offset with
  | nil => simp [Decoded.followedBy]
  | cons b bytes ih =>
    rw [List.mem_cons, not_or] at h
    rw [List.cons_append, decodeFrom_of_turn_eq_some (turn_of_ne (Ne.symm h.1) (bytes ++ rest)),
      List.drop_one, List.tail_cons, ih h.2, ← Decoded.followedBy_assoc, List.length_cons,
      Nat.add_assoc, Nat.add_comm 1]
    simp [Decoded.followedBy, Decoded.shift, Nat.add_comm]

/-- A packet with a wrong checksum loses its first byte, and the others are passed over like bytes
that begin no packet. -/
theorem decodeFrom_corrupt_append {c : Cut} (h : (Item.corrupt c).Genuine codec t) (offset : Nat)
    (rest : List UInt8) :
    decodeFrom codec t offset (c.bytes ++ rest) =
      ((Item.corrupt c).report t offset).followedBy
        (decodeFrom codec t (offset + c.bytes.length) rest) := by
  obtain ⟨hc, hknown, hne, hfree⟩ := h
  have hturn : turn codec t (c.bytes ++ rest) = some (Turn.ofVerdict c (judge codec t c)) :=
    turn_of_cut (cut_bytes_append hc rest)
  rw [judge_of_received_ne hc hknown hne] at hturn
  have hpos : 1 ≤ c.bytes.length := c.length_bytes ▸ c.packet.frameLength_pos
  have hlength : offset + 1 + c.bytes.tail.length = offset + c.bytes.length := by
    rw [List.length_tail]
    omega
  rw [decodeFrom_of_turn_eq_some hturn, Turn.shift_report_removed]
  -- the turn drops the first byte, and the others begin no packet
  calc Decoded.followedBy { removed := [⟨c.packet.messageId, offset, offset + c.bytes.length,
          .checksumMismatch c.received (c.packet.checksumUnder t).value⟩] }
        (decodeFrom codec t (offset + 1) ((c.bytes ++ rest).drop 1))
      = Decoded.followedBy { removed := [⟨c.packet.messageId, offset, offset + c.bytes.length,
          .checksumMismatch c.received (c.packet.checksumUnder t).value⟩] }
          (Decoded.followedBy { skipped := c.bytes.tail.length }
            (decodeFrom codec t (offset + c.bytes.length) rest)) := by
        rw [List.drop_append_of_le_length hpos, List.drop_one, decodeFrom_noise_append hfree,
          hlength]
    _ = ((Item.corrupt c).report t offset).followedBy
          (decodeFrom codec t (offset + c.bytes.length) rest) := by
        rw [← Decoded.followedBy_assoc, List.length_tail]
        simp [Item.report, Item.delivered?, Item.removed?, Item.skipped, Decoded.followedBy]

/-! ## Whole streams -/

/-- Decoding passes over each item with the report that is due to it. -/
theorem decodeFrom_item_append (hids : (codec.messages.map Message.id).Nodup) {item : Item}
    (h : item.Genuine codec t) (offset : Nat) (rest : List UInt8) :
    decodeFrom codec t offset (item.bytes ++ rest) =
      (item.report t offset).followedBy
        (decodeFrom codec t (offset + item.bytes.length) rest) := by
  cases item with
  | message m header values bytes =>
    obtain ⟨hm, hframe⟩ := h
    obtain ⟨c, hc, rfl, rfl, hid, heq, hpack⟩ := exists_cut_of_encodeMessage hm hframe
    -- no other message has this id, so the packet is read as the message it was made of
    have hfound : codec.messageById? c.packet.messageId = some m := by
      rw [hid]
      exact messageById?_id hids (List.mem_of_find?_eq_some hm)
    have hjudge := judge_of_received_eq hc hfound heq
    rw [Payload.unpack_of_pack hpack] at hjudge
    rw [Item.bytes, decodeFrom_bytes_append hc hjudge rfl, Turn.shift_report_delivered]
    rfl
  | noise bytes =>
    rw [Item.bytes, decodeFrom_noise_append h]
    rfl
  | unknown c =>
    obtain ⟨hc, hnone⟩ := h
    rw [Item.bytes, decodeFrom_bytes_append hc (judge_of_unknown hnone) rfl,
      Turn.shift_report_removed]
    rfl
  | corrupt c => exact decodeFrom_corrupt_append h offset rest
  | unreadable c fault =>
    obtain ⟨hc, heq, m, hm, hunpack⟩ := h
    have hjudge := judge_of_received_eq hc hm heq
    rw [hunpack] at hjudge
    rw [Item.bytes, decodeFrom_bytes_append hc hjudge rfl, Turn.shift_report_removed]
    rfl

/-- Bytes too few for a packet are left over. -/
theorem decodeFrom_part {c : Cut} (hc : c.Complete) {part : List UInt8} (hfront : part <+: c.bytes)
    (hne : part ≠ c.bytes) (offset : Nat) :
    decodeFrom codec t offset part = { remainder := part.length } := by
  apply decodeFrom_of_turn_eq_none
  cases part with
  | nil => exact turn_nil
  | cons b rest =>
    obtain ⟨fault, hcut⟩ := exists_cut_eq_error hc hfront hne
    obtain ⟨more, hmore⟩ := hfront
    have hb : b = startByte := (List.cons.inj hmore).1
    rw [hb] at hcut ⊢
    exact turn_of_cut_eq_error hcut

/-- **A stream of known composition is taken apart into its items.** Let the messages of a codec
have distinct ids, and let a stream consist of genuine items in any order, and perhaps of a part of
one more packet. Then decoding delivers one message for each packet made of a message, in order,
with the name, the header, the place and the values in the form in which they are read; it removes
one packet for each of the other packets, in order, with its id, its place and the reason; it skips
the bytes between packets and those behind the first of a packet with a wrong checksum; and it
leaves over the part at the end. -/
theorem decodeStream_items (codec : Codec) (t : Table)
    (hids : (codec.messages.map Message.id).Nodup) (items : List Item)
    (hitems : ∀ item ∈ items, item.Genuine codec t) (part : List UInt8)
    (hpart : ∃ c : Cut, c.Complete ∧ part <+: c.bytes ∧ part ≠ c.bytes) :
    decodeStream codec t (items.flatMap Item.bytes ++ part) =
      { messages := (placed 0 items).filterMap fun p => p.2.delivered? p.1
        removed := (placed 0 items).filterMap fun p => p.2.removed? t p.1
        skipped := (items.map Item.skipped).sum
        remainder := part.length } := by
  obtain ⟨c, hc, hfront, hne⟩ := hpart
  rw [decodeStream]
  -- the items behind the first are decoded from another place
  generalize 0 = offset
  induction items generalizing offset with
  | nil => exact decodeFrom_part hc hfront hne offset
  | cons item rest ih =>
    rw [List.forall_mem_cons] at hitems
    rw [List.flatMap_cons, List.append_assoc, decodeFrom_item_append hids hitems.1, ih hitems.2,
      placed, filterMap_cons_eq_append, filterMap_cons_eq_append, List.map_cons, List.sum_cons]
    rfl

/-- A codec of one message. -/
def sampleCodec : Codec := ⟨.big, [Payload.sampleMessage]⟩

/-- A table with a code for it. -/
def sampleTable : Table := ⟨[⟨7, "SAMPLE", 90⟩]⟩

/-- One item of each kind; the unknown packet is full of start bytes. -/
def sampleItems : List Item :=
  [.noise [1, 2],
    .message Payload.sampleMessage ⟨1, 2, 3⟩ Payload.sampleValues
      [254, 5, 1, 2, 3, 7, 255, 254, 1, 44, 9, 42, 146],
    .unknown ⟨⟨⟨254, 254, 254⟩, 9, [254, 254]⟩, 0xFEFE⟩,
    .corrupt ⟨⟨⟨4, 2, 3⟩, 7, [1, 2]⟩, 52892⟩,
    .unreadable ⟨⟨⟨5, 2, 3⟩, 7, [1]⟩, 41882⟩ (.payloadLength "SAMPLE" 5 1)]

/-- A stream with an item of each kind, and a part of one more packet. -/
theorem decodeStream_items_sample :
    (sampleCodec.messages.map Message.id).Nodup ∧
      (∀ item ∈ sampleItems, item.Genuine sampleCodec sampleTable) ∧
      (∃ c : Cut, c.Complete ∧ [254, 3, 0] <+: c.bytes ∧ [254, 3, 0] ≠ c.bytes) ∧
      decodeStream sampleCodec sampleTable (sampleItems.flatMap Item.bytes ++ [254, 3, 0]) =
        { messages := [⟨"SAMPLE", ⟨1, 2, 3⟩,
            [("pair", .list [.scalar (.i16 (-2)), .scalar (.i16 300)]), ("flag", .scalar (.u8 9))],
            2, 15⟩]
          removed := [⟨9, 15, 25, .unknownMessage 9⟩,
            ⟨7, 25, 35, .checksumMismatch 52892 52893⟩,
            ⟨7, 35, 44, .payload (.payloadLength "SAMPLE" 5 1)⟩]
          skipped := 11
          remainder := 3 } := by
  have hids : (sampleCodec.messages.map Message.id).Nodup := by decide
  have hitems : ∀ item ∈ sampleItems, item.Genuine sampleCodec sampleTable := by
    simp only [sampleItems, List.forall_mem_cons]
    have hnoise : startByte ∉ [1, 2] := by decide
    refine ⟨hnoise, ⟨rfl, rfl⟩, ⟨by decide, rfl⟩, ?_, ⟨by decide, by decide, _, rfl, rfl⟩, ?_⟩
    · exact ⟨by decide, by decide, by decide, by decide⟩
    · exact fun item h => absurd h (by simp)
  have hpart : ∃ c : Cut, c.Complete ∧ [254, 3, 0] <+: c.bytes ∧ [254, 3, 0] ≠ c.bytes :=
    ⟨⟨⟨⟨0, 0, 0⟩, 0, [0, 0, 0]⟩, 0⟩, by decide, by decide, by decide⟩
  refine ⟨hids, hitems, hpart, ?_⟩
  rw [decodeStream_items sampleCodec sampleTable hids sampleItems hitems [254, 3, 0] hpart]
  rfl

end Dialect.Frame
