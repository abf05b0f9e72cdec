import Dialect.Proofs.Frame.Accounting
import Dialect.Proofs.Frame.Decode

/-!
# The stream decoder agrees with reading single packets

Decoding a stream cuts packets off by itself, looks for their messages before it looks at their
checksums, and finds its way back after errors. Nothing it delivers would have been refused as a
single packet, though, and nothing it removes for its checksum would have been accepted. All that is
reported comes from some turn (`exists_turn_of_reported`), and a turn on a packet says what reading
that packet says (`judge_cases`). Since what is delivered is passed over whole, no two places of
messages overlap, nor do those of a message and of a packet that was passed over whole.
-/

namespace Dialect.Frame

open Dialect.Payload (Codec)
open Dialect.Schema (Message Table)

variable {codec : Codec} {t : Table}

/-! ## Verdicts and single packets -/

/-- What a verdict rests on: an id that is not known; a wrong checksum; or a right one, and then it
is the payload that decides. -/
theorem judge_cases (codec : Codec) (t : Table) {c : Cut} (hc : c.Complete) :
    (codec.messageById? c.packet.messageId = none ∧
        judge codec t c = .removed (.unknownMessage c.packet.messageId)) ∨
      (c.received ≠ (c.packet.checksumUnder t).value ∧ judge codec t c =
        .removed (.checksumMismatch c.received (c.packet.checksumUnder t).value)) ∨
      ∃ m, codec.messageById? c.packet.messageId = some m ∧
        c.received = (c.packet.checksumUnder t).value ∧
          ((∃ values, Payload.unpack codec.order m c.packet.payload = .ok values ∧
              judge codec t c = .delivered m.name values) ∨
            ∃ fault, Payload.unpack codec.order m c.packet.payload = .error fault ∧
              judge codec t c = .removed (.payload fault)) := by
  rcases hm : codec.messageById? c.packet.messageId with _ | m
  · exact .inl ⟨rfl, judge_of_unknown hm⟩
  · by_cases heq : c.received = (c.packet.checksumUnder t).value
    · refine .inr (.inr ⟨m, rfl, heq, ?_⟩)
      rw [judge_of_received_eq hc hm heq]
      rcases Payload.unpack codec.order m c.packet.payload with fault | values
      · exact .inr ⟨fault, rfl, rfl⟩
      · exact .inl ⟨values, rfl, rfl⟩
    · exact .inr (.inl ⟨heq, judge_of_received_ne hc (by rw [hm]; exact nofun) heq⟩)

/-- The message is what comes of reading the packet in front of some bytes and unpacking it. -/
def Delivered.ReadFrom (codec : Codec) (t : Table) (bytes : List UInt8) (m : Delivered) : Prop :=
  ∃ p spec, Packet.decode bytes t = .ok (p, m.stop - m.start) ∧ m.header = p.header ∧
    codec.messageById? p.messageId = some spec ∧ m.name = spec.name ∧
      Payload.unpack codec.order spec p.payload = .ok m.values

/-- If the packet was removed for its checksum, reading it in front of some bytes ends with the
same two checksums. -/
def Removed.RefusedFrom (t : Table) (bytes : List UInt8) (r : Removed) : Prop :=
  ∀ received computed, r.reason = .checksumMismatch received computed →
    received ≠ computed ∧
      Packet.decode bytes t = .error (.checksumMismatch received computed)

/-- Where a packet stands has no part in what it is read as. -/
theorem Delivered.readFrom_shift {k : Nat} {bytes : List UInt8} {m : Delivered} :
    (m.shift k).ReadFrom codec t bytes ↔ m.ReadFrom codec t bytes := by
  unfold ReadFrom shift
  simp only [Nat.add_sub_add_left]

/-! ## What turns report -/

/-- A turn that delivers a message removes none and passes over just the bytes of the message. -/
theorem of_mem_messages_of_turn {bytes : List UInt8} {u : Turn} (h : turn codec t bytes = some u)
    {m : Delivered} (hm : m ∈ u.report.messages) :
    u.report.messages = [m] ∧ u.report.removed = [] ∧ m.start = 0 ∧ m.stop = u.length ∧
      m.ReadFrom codec t bytes := by
  rcases turn_cases h with ⟨b, rest, rfl, -, rfl⟩ | ⟨c, hc, rfl⟩
  · exact absurd hm (by simp)
  · rcases judge_cases codec t (cut_eq_ok_iff.mp hc).1 with
      ⟨-, hv⟩ | ⟨-, hv⟩ | ⟨spec, hspec, heq, ⟨values, hvalues, hv⟩ | ⟨fault, -, hv⟩⟩ <;>
      rw [hv] at hm ⊢
    · exact absurd hm (by simp [Turn.ofVerdict])
    · exact absurd hm (by simp [Turn.ofVerdict])
    -- only a packet that is read to the end is a message
    · obtain rfl := List.mem_singleton.mp hm
      refine ⟨rfl, rfl, rfl, rfl, c.packet, spec, ?_, rfl, hspec, rfl, hvalues⟩
      rw [Packet.decode_of_cut hc, if_pos heq]
      rfl
    · exact absurd hm (by simp [Turn.ofVerdict])

/-- A turn that removes a packet delivers none, and passes over the bytes of the packet unless it is
removed for its checksum. -/
theorem of_mem_removed_of_turn {bytes : List UInt8} {u : Turn} (h : turn codec t bytes = some u)
    {r : Removed} (hr : r ∈ u.report.removed) :
    u.report.messages = [] ∧ r.start = 0 ∧ (r.reason.isMismatch = false → r.stop = u.length) ∧
      r.RefusedFrom t bytes := by
  rcases turn_cases h with ⟨b, rest, rfl, -, rfl⟩ | ⟨c, hc, rfl⟩
  · exact absurd hr (by simp)
  · rcases judge_cases codec t (cut_eq_ok_iff.mp hc).1 with
      ⟨-, hv⟩ | ⟨hne, hv⟩ | ⟨spec, -, -, ⟨values, -, hv⟩ | ⟨fault, -, hv⟩⟩ <;>
      rw [hv] at hr ⊢
    · obtain rfl := List.mem_singleton.mp hr
      exact ⟨rfl, rfl, fun _ => rfl, fun _ _ hreason => absurd hreason (by simp)⟩
    -- a wrong checksum, for which reading a single packet is refused as well
    · obtain rfl := List.mem_singleton.mp hr
      refine ⟨rfl, rfl, fun hreason => absurd hreason (by simp [Reason.isMismatch]), ?_⟩
      rintro _ _ ⟨⟩
      exact ⟨hne, (Packet.decode_of_cut hc t).trans (if_neg hne)⟩
    · exact absurd hr (by simp [Turn.ofVerdict])
    · obtain rfl := List.mem_singleton.mp hr
      exact ⟨rfl, rfl, fun _ => rfl, fun _ _ hreason => absurd hreason (by simp)⟩

/-- All that decoding reports comes from a turn at some place behind the first byte. -/
theorem exists_turn_of_reported (codec : Codec) (t : Table) (offset : Nat) (bytes : List UInt8) :
    (∀ m ∈ (decodeFrom codec t offset bytes).messages, ∃ k u m₀,
        turn codec t (bytes.drop k) = some u ∧ m₀ ∈ u.report.messages ∧
          m = m₀.shift (offset + k)) ∧
      ∀ r ∈ (decodeFrom codec t offset bytes).removed, ∃ k u r₀,
        turn codec t (bytes.drop k) = some u ∧ r₀ ∈ u.report.removed ∧
          r = r₀.shift (offset + k) := by
  induction bytes using turn_induction codec t generalizing offset with
  | hwait bytes h =>
    rw [decodeFrom_of_turn_eq_none h]
    exact ⟨nofun, nofun⟩
  | hturn bytes u h ih =>
    obtain ⟨hmessages, hremoved⟩ := ih (offset + u.length)
    rw [decodeFrom_of_turn_eq_some h]
    -- what comes from a turn behind this one comes from a turn `u.length` bytes later
    constructor
    · intro m hm
      rcases List.mem_append.mp hm with hm | hm
      · obtain ⟨m₀, hm₀, rfl⟩ := List.mem_map.mp hm
        exact ⟨0, u, m₀, h, hm₀, rfl⟩
      · obtain ⟨k, v, m₀, hv, hm₀, rfl⟩ := hmessages m hm
        rw [List.drop_drop] at hv
        exact ⟨u.length + k, v, m₀, hv, hm₀, by rw [Nat.add_assoc]⟩
    · intro r hr
      rcases List.mem_append.mp hr with hr | hr
      · obtain ⟨r₀, hr₀, rfl⟩ := List.mem_map.mp hr
        exact ⟨0, u, r₀, h, hr₀, rfl⟩
      · obtain ⟨k, v, r₀, hv, hr₀, rfl⟩ := hremoved r hr
        rw [List.drop_drop] at hv
        exact ⟨u.length + k, v, r₀, hv, hr₀, by rw [Nat.add_assoc]⟩

/-! ## Places -/

namespace Decoded

/-- No message overlaps a later one, or a packet that was passed over whole. -/
structure Apart (d : Decoded) : Prop where
  messages : d.messages.Pairwise fun m m' => m.stop ≤ m'.start
  removed : ∀ m ∈ d.messages, ∀ r ∈ d.removed, r.reason.isMismatch = false →
    m.stop ≤ r.start ∨ r.stop ≤ m.start

/-- What was passed over whole ends before `k`. -/
def EndsBy (d : Decoded) (k : Nat) : Prop :=
  (∀ m ∈ d.messages, m.stop ≤ k) ∧ ∀ r ∈ d.removed, r.reason.isMismatch = false → r.stop ≤ k

/-- What one report passes over stays apart from what a later one does, if the one ends before the
other begins. -/
theorem Apart.followedBy {d e : Decoded} (hd : d.Apart) (he : e.Apart) {k high : Nat}
    (hends : d.EndsBy k) (hbegins : e.Within k high) : (d.followedBy e).Apart := by
  have hmessages : ∀ m ∈ e.messages, k ≤ m.start := fun m hm =>
    (hbegins (m.start, m.stop) (List.mem_append_left _ (List.mem_map_of_mem hm))).1
  have hremoved : ∀ r ∈ e.removed, k ≤ r.start := fun r hr =>
    (hbegins (r.start, r.stop) (List.mem_append_right _ (List.mem_map_of_mem hr))).1
  constructor
  · refine List.pairwise_append.mpr ⟨hd.messages, he.messages, ?_⟩
    intro m hm m' hm'
    exact (hends.1 m hm).trans (hmessages m' hm')
  · intro m hm r hr hreason
    rcases List.mem_append.mp hm with hm | hm <;> rcases List.mem_append.mp hr with hr | hr
    · exact hd.removed m hm r hr hreason
    · exact .inl ((hends.1 m hm).trans (hremoved r hr))
    · exact .inr ((hends.2 r hr hreason).trans (hmessages m hm))
    · exact he.removed m hm r hr hreason

end Decoded

/-- A turn reports one message or one packet at most, so nothing overlaps in its report. -/
theorem apart_of_turn {bytes : List UInt8} {u : Turn} (h : turn codec t bytes = some u)
    (offset : Nat) : (u.report.shift offset).Apart := by
  rcases hmessages : u.report.messages with _ | ⟨m, rest⟩
  · have hnone : (u.report.shift offset).messages = [] := by
      rw [Decoded.shift, hmessages]
      rfl
    exact ⟨hnone ▸ .nil, fun m hm => absurd hm (by simp [hnone])⟩
  · obtain ⟨hone, hnone, -⟩ := of_mem_messages_of_turn h (m := m) (by rw [hmessages]; simp)
    rw [Decoded.shift, hone, hnone]
    exact ⟨List.pairwise_singleton _ _, fun m _ r hr => absurd hr (by simp)⟩

/-- What a turn passes over whole ends where the turn does. -/
theorem endsBy_of_turn {bytes : List UInt8} {u : Turn} (h : turn codec t bytes = some u)
    (offset : Nat) : (u.report.shift offset).EndsBy (offset + u.length) := by
  constructor
  · intro m hm
    obtain ⟨m₀, hm₀, rfl⟩ := List.mem_map.mp hm
    obtain ⟨-, -, -, hstop, -⟩ := of_mem_messages_of_turn h hm₀
    show offset + m₀.stop ≤ offset + u.length
    rw [hstop]
  · intro r hr hreason
    obtain ⟨r₀, hr₀, rfl⟩ := List.mem_map.mp hr
    obtain ⟨-, -, hstop, -⟩ := of_mem_removed_of_turn h hr₀
    show offset + r₀.stop ≤ offset + u.length
    rw [hstop hreason]

/-- Messages of a stream do not overlap each other, nor packets that were passed over whole. -/
theorem apart_decodeFrom (offset : Nat) (bytes : List UInt8) :
    (decodeFrom codec t offset bytes).Apart := by
  induction bytes using turn_induction codec t generalizing offset with
  | hwait bytes h =>
    rw [decodeFrom_of_turn_eq_none h]
    exact ⟨.nil, nofun⟩
  | hturn bytes u h ih =>
    rw [decodeFrom_of_turn_eq_some h]
    exact (apart_of_turn h offset).followedBy (ih (offset + u.length)) (endsBy_of_turn h offset)
      (within_decodeFrom (offset + u.length) (bytes.drop u.length))

/-! ## Streams -/

/-- **The stream decoder agrees with reading single packets.** At the place of each message that is
delivered a packet is read that ends where the place does; it has the header of the message, and
unpacking its payload as the message with its id gives the name and the values. The places of
messages come in ascending order and do not overlap, neither each other nor that of a packet removed
for its id or its payload. And at the place of a packet removed for its checksum, reading a packet
is refused for the same two checksums. -/
theorem decodeStream_agrees (codec : Codec) (t : Table) (bytes : List UInt8) :
    let d := decodeStream codec t bytes
    (∀ m ∈ d.messages, m.start < m.stop ∧ ∃ p spec,
        Packet.decode (bytes.drop m.start) t = .ok (p, m.stop - m.start) ∧
          m.header = p.header ∧ codec.messageById? p.messageId = some spec ∧
            m.name = spec.name ∧ Payload.unpack codec.order spec p.payload = .ok m.values) ∧
      d.messages.Pairwise (fun m m' => m.stop ≤ m'.start) ∧
      (∀ m ∈ d.messages, ∀ r ∈ d.removed, r.reason.isMismatch = false →
        m.stop ≤ r.start ∨ r.stop ≤ m.start) ∧
      ∀ r ∈ d.removed, ∀ received computed, r.reason = .checksumMismatch received computed →
        received ≠ computed ∧ Packet.decode (bytes.drop r.start) t =
          .error (.checksumMismatch received computed) := by
  intro d
  -- all that is reported comes from a turn at some place, which says what is read there
  obtain ⟨hmessages, hremoved⟩ := exists_turn_of_reported codec t 0 bytes
  have hwithin : d.Within 0 (0 + bytes.length) := within_decodeFrom 0 bytes
  obtain ⟨hordered, hdisjoint⟩ : d.Apart := apart_decodeFrom 0 bytes
  refine ⟨fun m hm => ⟨?_, ?_⟩, hordered, hdisjoint, fun r hr => ?_⟩
  · exact (hwithin (m.start, m.stop) (List.mem_append_left _ (List.mem_map_of_mem hm))).2.1
  · obtain ⟨k, u, m₀, hu, hm₀, rfl⟩ := hmessages m hm
    obtain ⟨-, -, hstart, -, hread⟩ := of_mem_messages_of_turn hu hm₀
    have hplace : (m₀.shift (0 + k)).start = k := by
      show 0 + k + m₀.start = k
      omega
    show (m₀.shift (0 + k)).ReadFrom codec t (bytes.drop (m₀.shift (0 + k)).start)
    rw [Delivered.readFrom_shift, hplace]
    exact hread
  · obtain ⟨k, u, r₀, hu, hr₀, rfl⟩ := hremoved r hr
    obtain ⟨-, hstart, -, hrefused⟩ := of_mem_removed_of_turn hu hr₀
    have hplace : (r₀.shift (0 + k)).start = k := by
      show 0 + k + r₀.start = k
      omega
    rw [hplace]
    exact hrefused

/-- Two packets with one of an unknown message and one with a wrong checksum between them. -/
def pingTwice : List UInt8 :=
  [254, 0, 1, 2, 3, 7, 46, 152] ++ [254, 0, 0, 0, 0, 9, 0, 0] ++ [254, 0, 0, 0, 0, 7, 0, 0] ++
    [254, 0, 1, 2, 3, 7, 46, 152]

/-- Two messages with two removed packets between them. -/
theorem decodeStream_agrees_sample :
    decodeStream pingCodec {} pingTwice =
        { messages := [⟨"PING", ⟨1, 2, 3⟩, [], 0, 8⟩, ⟨"PING", ⟨1, 2, 3⟩, [], 24, 32⟩]
          removed := [⟨9, 8, 16, .unknownMessage 9⟩, ⟨7, 16, 24, .checksumMismatch 0 17784⟩]
          skipped := 7 } ∧
      (∃ p spec, Packet.decode (pingTwice.drop 24) {} = .ok (p, 32 - 24) ∧
        ⟨1, 2, 3⟩ = p.header ∧ pingCodec.messageById? p.messageId = some spec ∧
          "PING" = spec.name ∧ Payload.unpack .little spec p.payload = .ok []) ∧
      (8 ≤ 8 ∨ 16 ≤ 0) ∧ (0 : UInt16) ≠ 17784 ∧
      Packet.decode (pingTwice.drop 16) {} = .error (.checksumMismatch 0 17784) := by
  have hd : decodeStream pingCodec {} pingTwice =
      { messages := [⟨"PING", ⟨1, 2, 3⟩, [], 0, 8⟩, ⟨"PING", ⟨1, 2, 3⟩, [], 24, 32⟩]
        removed := [⟨9, 8, 16, .unknownMessage 9⟩, ⟨7, 16, 24, .checksumMismatch 0 17784⟩]
        skipped := 7 } := by
    cbv
  obtain ⟨hread, -, hapart, hrefused⟩ := decodeStream_agrees pingCodec {} pingTwice
  rw [hd] at hread hapart hrefused
  obtain ⟨hne, hrefusal⟩ := hrefused ⟨7, 16, 24, .checksumMismatch 0 17784⟩ (by simp) _ _ rfl
  refine ⟨hd, (hread ⟨"PING", ⟨1, 2, 3⟩, [], 24, 32⟩ (by simp)).2, ?_, hne, hrefusal⟩
  exact hapart ⟨"PING", ⟨1, 2, 3⟩, [], 0, 8⟩ (by simp) ⟨9, 8, 16, .unknownMessage 9⟩ (by simp) rfl

end Dialect.Frame
