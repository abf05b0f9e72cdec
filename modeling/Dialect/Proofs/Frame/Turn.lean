import Dialect.Proofs.Frame.Cut

/-!
# Turns of the stream decoder

Decoding a stream goes in turns. A turn looks at the bytes in front, reports something about them
and passes over some of them, or it waits for more bytes and decoding ends (`turn`). What decoding
does is said by two statements, `decodeFrom_of_turn_eq_none` and `decodeFrom_of_turn_eq_some`;
everything about whole streams follows from them by induction on the turns.
-/

namespace Dialect.Frame

open Dialect.Payload (Codec Values)
open Dialect.Schema (Message Table)

variable {codec : Codec} {t : Table}

/-! ## Reports -/

/-- The message, found in bytes that stand `k` places later. -/
def Delivered.shift (k : Nat) (m : Delivered) : Delivered :=
  { m with start := k + m.start, stop := k + m.stop }

/-- The removed packet, found in bytes that stand `k` places later. -/
def Removed.shift (k : Nat) (r : Removed) : Removed :=
  { r with start := k + r.start, stop := k + r.stop }

namespace Decoded

/-- The report on the same bytes, standing `k` places later. -/
def shift (k : Nat) (d : Decoded) : Decoded :=
  { d with messages := d.messages.map (·.shift k), removed := d.removed.map (·.shift k) }

/-- The report on bytes of which the first part is reported on by `d`, the second by `e`. What the
first part left over belongs to the second. -/
def followedBy (d e : Decoded) : Decoded :=
  ⟨d.messages ++ e.messages, d.removed ++ e.removed, d.skipped + e.skipped, e.remainder⟩

/-- What is left over is what the last report leaves over. -/
theorem remainder_followedBy (d e : Decoded) : (d.followedBy e).remainder = e.remainder := rfl

/-- Reports in a row come to the same however they are grouped. -/
theorem followedBy_assoc (d e f : Decoded) :
    (d.followedBy e).followedBy f = d.followedBy (e.followedBy f) := by
  simp only [followedBy, List.append_assoc, Nat.add_assoc]

/-- Reports in a row move together. -/
theorem shift_followedBy (k : Nat) (d e : Decoded) :
    (d.followedBy e).shift k = (d.shift k).followedBy (e.shift k) := by
  simp only [followedBy, shift, List.map_append]

/-- Moving a report twice moves it by both distances. -/
theorem shift_shift (k n : Nat) (d : Decoded) : (d.shift n).shift k = d.shift (k + n) := by
  simp only [shift, List.map_map, Function.comp_def, Delivered.shift, Removed.shift, Nat.add_assoc]

end Decoded

/-! ## Verdicts -/

/-- A packet of a message that the codec does not have is removed for its id. -/
theorem judge_of_unknown {c : Cut} (h : codec.messageById? c.packet.messageId = none) :
    judge codec t c = .removed (.unknownMessage c.packet.messageId) := by
  rw [judge, h]

/-- A packet of a known message is removed for its checksum if that is wrong. -/
theorem judge_of_received_ne {c : Cut} (hc : c.Complete)
    (hknown : codec.messageById? c.packet.messageId ≠ none)
    (hne : c.received ≠ (c.packet.checksumUnder t).value) :
    judge codec t c = .removed (.checksumMismatch c.received (c.packet.checksumUnder t).value) := by
  obtain ⟨m, hm⟩ := Option.ne_none_iff_exists'.mp hknown
  rw [judge, hm, checksum_of_complete hc t]
  exact if_pos hne

/-- With a right checksum, it is the payload that decides. -/
theorem judge_of_received_eq {c : Cut} {m : Message} (hc : c.Complete)
    (hm : codec.messageById? c.packet.messageId = some m)
    (heq : c.received = (c.packet.checksumUnder t).value) :
    judge codec t c =
      match Payload.unpack codec.order m c.packet.payload with
      | .ok values => .delivered m.name values
      | .error fault => .removed (.payload fault) := by
  rw [judge, hm, checksum_of_complete hc t]
  exact if_neg (not_not.mpr heq)

/-- There is always a checksum to compare with. -/
theorem judge_ne_unchecked {c : Cut} (hc : c.Complete) (fault : Fault) :
    judge codec t c ≠ .unchecked fault := by
  cases hm : codec.messageById? c.packet.messageId with
  | none =>
    rw [judge_of_unknown hm]
    exact nofun
  | some m =>
    by_cases heq : c.received = (c.packet.checksumUnder t).value
    · rw [judge_of_received_eq hc hm heq]
      split <;> exact nofun
    · rw [judge_of_received_ne hc (by rw [hm]; exact nofun) heq]
      exact nofun

/-! ## Turns -/

/-- What a turn reports, on bytes that stand at the beginning of a stream, and how many bytes it
passes over. -/
structure Turn where
  report : Decoded
  length : Nat

/-- The turn that ends with a verdict on a packet. -/
def Turn.ofVerdict (c : Cut) : Verdict → Turn
  | .delivered name values =>
    ⟨{ messages := [⟨name, c.packet.header, values, 0, c.packet.frameLength⟩] },
      c.packet.frameLength⟩
  | .removed (.checksumMismatch received computed) =>
    ⟨{ removed := [⟨c.packet.messageId, 0, c.packet.frameLength,
      .checksumMismatch received computed⟩] }, 1⟩
  | .removed reason =>
    ⟨{ removed := [⟨c.packet.messageId, 0, c.packet.frameLength, reason⟩] },
      c.packet.frameLength⟩
  | .unchecked _ => ⟨{}, 1⟩

/-- The turn on the bytes in front, unless they are too few to tell. -/
def turn (codec : Codec) (t : Table) : List UInt8 → Option Turn
  | [] => none
  | b :: rest =>
    if b ≠ startByte then some ⟨{ skipped := 1 }, 1⟩
    else
      match cut (b :: rest) with
      | .error _ => none
      | .ok c => some (Turn.ofVerdict c (judge codec t c))

/-- Without bytes there is no turn. -/
theorem turn_nil : turn codec t [] = none := rfl

/-- A byte that begins no packet is skipped. -/
theorem turn_of_ne {b : UInt8} (h : b ≠ startByte) (rest : List UInt8) :
    turn codec t (b :: rest) = some ⟨{ skipped := 1 }, 1⟩ := by
  rw [turn, if_pos h]

/-- What becomes of a packet is what is judged of it. -/
theorem turn_of_cut {bytes : List UInt8} {c : Cut} (h : cut bytes = .ok c) :
    turn codec t bytes = some (Turn.ofVerdict c (judge codec t c)) := by
  obtain ⟨rest, rfl⟩ := (cut_eq_ok_iff.mp h).2
  have hstart : ¬ startByte ≠ startByte := not_not.mpr rfl
  rw [Cut.bytes, List.cons_append] at h ⊢
  rw [turn, if_neg hstart, h]

/-- A packet that has not come whole is waited for. -/
theorem turn_of_cut_eq_error {rest : List UInt8} {fault : Fault}
    (h : cut (startByte :: rest) = .error fault) : turn codec t (startByte :: rest) = none := by
  have hstart : ¬ startByte ≠ startByte := not_not.mpr rfl
  rw [turn, if_neg hstart, h]

/-- A turn passes over a byte that begins no packet, or it judges a packet. -/
theorem turn_cases {bytes : List UInt8} {u : Turn} (h : turn codec t bytes = some u) :
    (∃ b rest, bytes = b :: rest ∧ b ≠ startByte ∧ u = ⟨{ skipped := 1 }, 1⟩) ∨
      ∃ c, cut bytes = .ok c ∧ u = Turn.ofVerdict c (judge codec t c) := by
  cases bytes with
  | nil => exact absurd h (by simp [turn])
  | cons b rest =>
    rw [turn] at h
    split at h
    · next hb => exact .inl ⟨b, rest, rfl, hb, (Option.some.inj h).symm⟩
    · split at h
      · exact absurd h (by simp)
      · next c hc => exact .inr ⟨c, hc, (Option.some.inj h).symm⟩

/-- A verdict passes over one byte, or over the packet. -/
theorem Turn.length_ofVerdict (c : Cut) (v : Verdict) :
    (Turn.ofVerdict c v).length = 1 ∨ (Turn.ofVerdict c v).length = c.packet.frameLength := by
  unfold Turn.ofVerdict
  split
  · exact .inr rfl
  · exact .inl rfl
  · exact .inr rfl
  · exact .inl rfl

/-- A delivered packet is reported with its place in the stream. -/
theorem Turn.shift_report_delivered (c : Cut) (name : String) (values : Values) (offset : Nat) :
    (Turn.ofVerdict c (.delivered name values)).report.shift offset =
      { messages := [⟨name, c.packet.header, values, offset, offset + c.bytes.length⟩] } := by
  rw [Cut.length_bytes]
  rfl

/-- So is a removed one, whatever the reason is. -/
theorem Turn.shift_report_removed (c : Cut) (reason : Reason) (offset : Nat) :
    (Turn.ofVerdict c (.removed reason)).report.shift offset =
      { removed := [⟨c.packet.messageId, offset, offset + c.bytes.length, reason⟩] } := by
  rw [Cut.length_bytes]
  cases reason <;> rfl

/-- A turn passes over some of the bytes, and not over more than there are. -/
theorem turn_length {bytes : List UInt8} {u : Turn} (h : turn codec t bytes = some u) :
    0 < u.length ∧ u.length ≤ bytes.length := by
  rcases turn_cases h with ⟨b, rest, rfl, -, rfl⟩ | ⟨c, hc, rfl⟩
  · simp
  · have hle := (cut_eq_ok_iff.mp hc).2.length_le
    have hpos := c.packet.frameLength_pos
    rw [Cut.length_bytes] at hle
    rcases Turn.length_ofVerdict c (judge codec t c) with hlength | hlength <;> omega

/-- A turn does not depend on the bytes behind those it looked at. -/
theorem turn_append {a : List UInt8} {u : Turn} (h : turn codec t a = some u) (b : List UInt8) :
    turn codec t (a ++ b) = some u := by
  rcases turn_cases h with ⟨x, rest, rfl, hx, rfl⟩ | ⟨c, hc, rfl⟩
  · exact turn_of_ne hx (rest ++ b)
  · exact turn_of_cut (cut_append hc)

/-- Decoding ends with bytes that are too few for a turn. -/
theorem decodeFrom_of_turn_eq_none {bytes : List UInt8} (h : turn codec t bytes = none)
    (offset : Nat) : decodeFrom codec t offset bytes = { remainder := bytes.length } := by
  cases bytes with
  | nil => rw [decodeFrom]; rfl
  | cons b rest =>
    by_cases hb : b = startByte
    · subst hb
      have hstart : ¬ startByte ≠ startByte := not_not.mpr rfl
      cases hcut : cut (startByte :: rest) with
      | error fault => rw [decodeFrom, if_neg hstart, hcut]; rfl
      | ok c =>
        rw [turn_of_cut hcut] at h
        exact absurd h (by simp)
    · rw [turn_of_ne hb] at h
      exact absurd h (by simp)

/-- After a turn decoding goes on behind the bytes it passed over. -/
theorem decodeFrom_of_turn_eq_some {bytes : List UInt8} {u : Turn}
    (h : turn codec t bytes = some u) (offset : Nat) :
    decodeFrom codec t offset bytes =
      (u.report.shift offset).followedBy
        (decodeFrom codec t (offset + u.length) (bytes.drop u.length)) := by
  rcases turn_cases h with ⟨b, rest, rfl, hb, rfl⟩ | ⟨c, hc, rfl⟩
  · rw [decodeFrom, if_pos hb]
    simp [Decoded.skip, Decoded.followedBy, Decoded.shift, Nat.add_comm]
  · obtain ⟨rest, rfl⟩ := (cut_eq_ok_iff.mp hc).2
    have hstart : ¬ startByte ≠ startByte := not_not.mpr rfl
    have hdrop : ∀ (b : UInt8) (bytes : List UInt8),
        (b :: bytes).drop c.packet.frameLength = bytes.drop (c.packet.frameLength - 1) := by
      -- the code drops the start byte first and then the others
      intro b bytes
      rw [← Nat.succ_pred_eq_of_pos c.packet.frameLength_pos]
      rfl
    rw [Cut.bytes, List.cons_append] at hc ⊢
    rw [decodeFrom, if_neg hstart, hc]
    dsimp only
    cases judge codec t c with
    | delivered name values =>
      simp [Turn.ofVerdict, Decoded.deliver, Decoded.followedBy, Decoded.shift, Delivered.shift,
        hdrop]
    | removed reason =>
      cases reason <;>
        simp [Turn.ofVerdict, Decoded.remove, Decoded.followedBy, Decoded.shift, Removed.shift,
          hdrop]
    | unchecked fault => simp [Turn.ofVerdict, Decoded.followedBy, Decoded.shift]

/-- What holds of bytes too few for a turn, and of others if it holds of those behind the turn,
holds of all bytes. -/
theorem turn_induction {P : List UInt8 → Prop} (codec : Codec) (t : Table)
    (hwait : ∀ bytes, turn codec t bytes = none → P bytes)
    (hturn : ∀ bytes u, turn codec t bytes = some u → P (bytes.drop u.length) → P bytes)
    (bytes : List UInt8) : P bytes := by
  induction hn : bytes.length using Nat.strongRecOn generalizing bytes with
  | ind n ih =>
    cases h : turn codec t bytes with
    | none => exact hwait bytes h
    | some u =>
      -- a turn passes over at least one byte, so what is left is shorter
      obtain ⟨hpos, hle⟩ := turn_length h
      refine hturn bytes u h (ih (bytes.drop u.length).length ?_ _ rfl)
      rw [List.length_drop]
      omega

/-- Where the bytes stand only matters for where things are reported to be. -/
theorem decodeFrom_add (k : Nat) (bytes : List UInt8) (offset : Nat) :
    decodeFrom codec t (k + offset) bytes = (decodeFrom codec t offset bytes).shift k := by
  induction bytes using turn_induction codec t generalizing offset with
  | hwait bytes h =>
    rw [decodeFrom_of_turn_eq_none h, decodeFrom_of_turn_eq_none h]
    rfl
  | hturn bytes u h ih =>
    rw [decodeFrom_of_turn_eq_some h, decodeFrom_of_turn_eq_some h, Decoded.shift_followedBy,
      Decoded.shift_shift, Nat.add_assoc, ih]

/-- A stream is decoded alike wherever it begins; only the places in the report move. -/
theorem decodeFrom_eq_shift (offset : Nat) (bytes : List UInt8) :
    decodeFrom codec t offset bytes = (decodeStream codec t bytes).shift offset :=
  decodeFrom_add offset bytes 0

/-- What is left over is the end of the bytes. -/
theorem remainder_le_length (offset : Nat) (bytes : List UInt8) :
    (decodeFrom codec t offset bytes).remainder ≤ bytes.length := by
  induction bytes using turn_induction codec t generalizing offset with
  | hwait bytes h => rw [decodeFrom_of_turn_eq_none h]
  | hturn bytes u h ih =>
    rw [decodeFrom_of_turn_eq_some h, Decoded.remainder_followedBy]
    have hrest := ih (offset + u.length)
    rw [List.length_drop] at hrest
    exact hrest.trans (Nat.sub_le _ _)

end Dialect.Frame
