import Dialect.Proofs.Frame.Turn
import Mathlib.Algebra.GroupWithZero.Nat

/-!
# Every byte is accounted for

What a turn reports stands for just the bytes that it passes over (`settled_of_turn`): a byte that
was skipped for itself, a packet for all its bytes, and a packet with a wrong checksum for its first
byte, since only that is passed over. A turn that passes over a byte and reports nothing does not
come up, because every packet that is cut off has a checksum (`judge_ne_unchecked`). So over a whole
stream the report adds up to the number of bytes, and no place it names lies outside.
-/

namespace Dialect.Frame

open Dialect.Payload (Codec)
open Dialect.Schema (Table)

/-- The packet was removed for a wrong checksum. -/
def Reason.isMismatch : Reason → Bool
  | .checksumMismatch _ _ => true
  | _ => false

namespace Decoded

/-- The number of bytes that a report settles. -/
def settled (d : Decoded) : Nat :=
  d.skipped + (d.messages.map fun m => m.stop - m.start).sum +
    ((d.removed.filter fun r => !r.reason.isMismatch).map fun r => r.stop - r.start).sum +
      d.removed.countP fun r => r.reason.isMismatch

/-- Two reports in a row settle as many bytes as each of them does. -/
theorem settled_followedBy (d e : Decoded) : (d.followedBy e).settled = d.settled + e.settled := by
  simp only [settled, followedBy, List.map_append, List.sum_append, List.filter_append,
    List.countP_append]
  omega

/-- What a report settles does not depend on where the bytes stand. -/
theorem settled_shift (k : Nat) (d : Decoded) : (d.shift k).settled = d.settled := by
  simp only [settled, shift, List.map_map, List.filter_map, List.countP_map, Function.comp_def,
    Delivered.shift, Removed.shift, Nat.add_sub_add_left]

/-- The places that a report names, each with its first byte and the one behind its last. -/
def spans (d : Decoded) : List (Nat × Nat) :=
  (d.messages.map fun m => (m.start, m.stop)) ++ d.removed.map fun r => (r.start, r.stop)

/-- Two reports in a row name the places that each of them names. -/
theorem mem_spans_followedBy {d e : Decoded} {s : Nat × Nat} :
    s ∈ (d.followedBy e).spans ↔ s ∈ d.spans ∨ s ∈ e.spans := by
  simp only [spans, followedBy, List.map_append, List.mem_append]
  exact or_or_or_comm

/-- The places of a report move along with its bytes. -/
theorem spans_shift (k : Nat) (d : Decoded) :
    (d.shift k).spans = d.spans.map fun s => (k + s.1, k + s.2) := by
  simp only [spans, shift, List.map_append, List.map_map]
  rfl

/-- The places that a report names lie between two places of the stream, and none is empty. -/
def Within (d : Decoded) (low high : Nat) : Prop :=
  ∀ s ∈ d.spans, low ≤ s.1 ∧ s.1 < s.2 ∧ s.2 ≤ high

end Decoded

variable {codec : Codec} {t : Table}

/-! ## Turns -/

/-- The report on a packet stands for the bytes that are passed over. -/
theorem settled_ofVerdict (c : Cut) {v : Verdict} (hv : ∀ fault, v ≠ .unchecked fault) :
    (Turn.ofVerdict c v).report.settled = (Turn.ofVerdict c v).length := by
  cases v with
  | delivered name values => simp [Turn.ofVerdict, Decoded.settled]
  | removed reason => cases reason <;> simp [Turn.ofVerdict, Decoded.settled, Reason.isMismatch]
  | unchecked fault => exact absurd rfl (hv fault)

/-- A turn settles the bytes that it passes over, and no others. -/
theorem settled_of_turn {bytes : List UInt8} {u : Turn} (h : turn codec t bytes = some u) :
    u.report.settled = u.length := by
  rcases turn_cases h with ⟨b, rest, rfl, -, rfl⟩ | ⟨c, hc, rfl⟩
  · rfl
  · exact settled_ofVerdict c (judge_ne_unchecked (cut_eq_ok_iff.mp hc).1)

/-- The report on a packet names the place of the whole packet, or none. -/
theorem eq_of_mem_spans_ofVerdict {c : Cut} {v : Verdict} {s : Nat × Nat}
    (h : s ∈ (Turn.ofVerdict c v).report.spans) : s = (0, c.packet.frameLength) := by
  cases v with
  | delivered name values => simpa [Turn.ofVerdict, Decoded.spans] using h
  | removed reason => cases reason <;> simpa [Turn.ofVerdict, Decoded.spans] using h
  | unchecked fault => exact absurd h (by simp [Turn.ofVerdict, Decoded.spans])

/-- The places that a turn names lie in the bytes that it has been given. -/
theorem within_of_turn {bytes : List UInt8} {u : Turn} (h : turn codec t bytes = some u) :
    u.report.Within 0 bytes.length := by
  intro s hs
  rcases turn_cases h with ⟨b, rest, rfl, -, rfl⟩ | ⟨c, hc, rfl⟩
  · exact absurd hs (by simp [Decoded.spans])
  · obtain rfl := eq_of_mem_spans_ofVerdict hs
    have hle := (cut_eq_ok_iff.mp hc).2.length_le
    rw [Cut.length_bytes] at hle
    exact ⟨Nat.zero_le 0, c.packet.frameLength_pos, hle⟩

/-! ## Streams -/

/-- Each byte is settled once, or is left over at the end. -/
theorem settled_decodeFrom (offset : Nat) (bytes : List UInt8) :
    (decodeFrom codec t offset bytes).settled + (decodeFrom codec t offset bytes).remainder =
      bytes.length := by
  induction bytes using turn_induction codec t generalizing offset with
  | hwait bytes h =>
    rw [decodeFrom_of_turn_eq_none h]
    exact Nat.zero_add bytes.length
  | hturn bytes u h ih =>
    obtain ⟨-, hle⟩ := turn_length h
    have hrest := ih (offset + u.length)
    rw [List.length_drop] at hrest
    rw [decodeFrom_of_turn_eq_some h, Decoded.settled_followedBy, Decoded.settled_shift,
      settled_of_turn h, Decoded.remainder_followedBy]
    omega

/-- All places that are reported lie in the stream. -/
theorem within_decodeFrom (offset : Nat) (bytes : List UInt8) :
    (decodeFrom codec t offset bytes).Within offset (offset + bytes.length) := by
  -- on the turns; what is behind the first is reported from its end on
  induction bytes using turn_induction codec t generalizing offset with
  | hwait bytes h =>
    rw [decodeFrom_of_turn_eq_none h]
    exact fun s hs => absurd hs (by simp [Decoded.spans])
  | hturn bytes u h ih =>
    obtain ⟨-, hle⟩ := turn_length h
    rw [decodeFrom_of_turn_eq_some h]
    intro s hs
    rcases Decoded.mem_spans_followedBy.mp hs with hs | hs
    · rw [Decoded.spans_shift] at hs
      obtain ⟨place, hplace, rfl⟩ := List.mem_map.mp hs
      have := within_of_turn h place hplace
      dsimp only
      omega
    · have hrest := ih (offset + u.length) s hs
      rw [List.length_drop] at hrest
      omega

/-- **Every byte is accounted for exactly once.** The bytes skipped, the bytes left over, those of
the messages delivered, those of the packets removed for another reason than a wrong checksum, and
one byte for each packet removed for a wrong checksum are together as many as were decoded. All
places named lie within them. And wherever a packet is cut off, it has a checksum to compare with,
so no byte is passed over without a report. -/
theorem decodeStream_accounts (codec : Codec) (t : Table) (bytes : List UInt8) :
    let d := decodeStream codec t bytes
    d.skipped + d.remainder + (d.messages.map fun m => m.stop - m.start).sum +
        ((d.removed.filter fun r => !r.reason.isMismatch).map fun r => r.stop - r.start).sum +
          (d.removed.countP fun r => r.reason.isMismatch) = bytes.length ∧
      (∀ m ∈ d.messages, m.start < m.stop ∧ m.stop ≤ bytes.length) ∧
      (∀ r ∈ d.removed, r.start < r.stop ∧ r.stop ≤ bytes.length) ∧
      ∀ (offset : Nat) (c : Cut), cut (bytes.drop offset) = .ok c →
        (∃ crc, c.packet.checksum t = .ok crc) ∧ ∀ fault, judge codec t c ≠ .unchecked fault := by
  intro d
  have hsettled : d.settled + d.remainder = bytes.length := settled_decodeFrom 0 bytes
  have hwithin : d.Within 0 (0 + bytes.length) := within_decodeFrom 0 bytes
  rw [Nat.zero_add] at hwithin
  refine ⟨?_, fun m hm => ?_, fun r hr => ?_, fun offset c hc => ?_⟩
  · rw [Decoded.settled] at hsettled
    omega
  · exact (hwithin (m.start, m.stop) (List.mem_append_left _ (List.mem_map_of_mem hm))).2
  · exact (hwithin (r.start, r.stop) (List.mem_append_right _ (List.mem_map_of_mem hr))).2
  · have hcomplete := (cut_eq_ok_iff.mp hc).1
    exact ⟨⟨_, checksum_of_complete hcomplete t⟩, judge_ne_unchecked hcomplete⟩

/-- A codec with a message that has no fields. -/
def pingCodec : Codec := ⟨.little, [⟨7, "PING", none, []⟩]⟩

/-- A stray byte, a packet, one with a wrong checksum, one of an unknown message and the beginning
of one more. -/
def pingStream : List UInt8 :=
  [1] ++ [254, 0, 1, 2, 3, 7, 46, 152] ++ [254, 0, 0, 0, 0, 7, 0, 0] ++
    [254, 0, 0, 0, 0, 9, 0, 0] ++ [254]

/-- A stream in which every kind of thing happens to a byte. -/
theorem decodeStream_accounts_sample :
    decodeStream pingCodec {} pingStream =
        { messages := [⟨"PING", ⟨1, 2, 3⟩, [], 1, 9⟩]
          removed := [⟨7, 9, 17, .checksumMismatch 0 17784⟩, ⟨9, 17, 25, .unknownMessage 9⟩]
          skipped := 8
          remainder := 1 } ∧
      8 + 1 + (9 - 1) + (25 - 17) + 1 = pingStream.length ∧ 9 ≤ pingStream.length ∧
      25 ≤ pingStream.length ∧
      ∃ c, cut (pingStream.drop 9) = .ok c ∧ (∃ crc, c.packet.checksum {} = .ok crc) ∧
        ∀ fault, judge pingCodec {} c ≠ .unchecked fault := by
  have hd : decodeStream pingCodec {} pingStream =
      { messages := [⟨"PING", ⟨1, 2, 3⟩, [], 1, 9⟩]
        removed := [⟨7, 9, 17, .checksumMismatch 0 17784⟩, ⟨9, 17, 25, .unknownMessage 9⟩]
        skipped := 8
        remainder := 1 } := by
    cbv
  obtain ⟨hsum, hmessages, hremoved, hcut⟩ := decodeStream_accounts pingCodec {} pingStream
  rw [hd] at hsum hmessages hremoved
  have hc : cut (pingStream.drop 9) = .ok ⟨⟨⟨0, 0, 0⟩, 7, []⟩, 0⟩ := rfl
  exact ⟨hd, hsum, (hmessages _ List.mem_cons_self).2,
    (hremoved ⟨9, 17, 25, .unknownMessage 9⟩ (by decide)).2, _, hc, hcut 9 _ hc⟩

end Dialect.Frame
