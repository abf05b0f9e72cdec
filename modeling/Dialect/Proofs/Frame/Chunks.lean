import Dialect.Proofs.Frame.Turn

/-!
# Streams in chunks

A stream may be decoded as it arrives: the bytes a chunk leaves over are decoded again in front of
the next chunk. The outcome is that of decoding the whole stream at once, since no turn depends on
bytes that were not there yet.
-/

namespace Dialect.Frame

open Dialect.Payload (Codec)
open Dialect.Schema (Table)

variable {codec : Codec} {t : Table}

/-- Decoding `a ++ b` is decoding `a`, then what is left over of it together with `b`. -/
theorem decodeFrom_append (offset : Nat) (a b : List UInt8) :
    decodeFrom codec t offset (a ++ b) =
      (decodeFrom codec t offset a).followedBy
        (decodeFrom codec t (offset + (a.length - (decodeFrom codec t offset a).remainder))
          (a.drop (a.length - (decodeFrom codec t offset a).remainder) ++ b)) := by
  induction a using turn_induction codec t generalizing offset with
  | hwait a h =>
    rw [decodeFrom_of_turn_eq_none h]
    simp [Decoded.followedBy]
  | hturn a u h ih =>
    -- the first turn on `a` is also that on `a ++ b`, and what `a` leaves over is left by the rest
    obtain ⟨-, hle⟩ := turn_length h
    have hsame : (decodeFrom codec t offset a).remainder =
        (decodeFrom codec t (offset + u.length) (a.drop u.length)).remainder := by
      rw [decodeFrom_of_turn_eq_some h, Decoded.remainder_followedBy]
    have hrest : (decodeFrom codec t offset a).remainder ≤ a.length - u.length := by
      rw [hsame, ← List.length_drop]
      exact remainder_le_length (offset + u.length) (a.drop u.length)
    have hsettled : u.length + (a.length - u.length - (decodeFrom codec t offset a).remainder) =
        a.length - (decodeFrom codec t offset a).remainder := by
      omega
    rw [decodeFrom_of_turn_eq_some (turn_append h b), List.drop_append_of_le_length hle, ih,
      ← Decoded.followedBy_assoc, ← decodeFrom_of_turn_eq_some h, ← hsame, List.length_drop,
      List.drop_drop, Nat.add_assoc, hsettled]

/-- **Chunked decoding is whole decoding.** Let the first part of a stream be decoded, then the
bytes it left over in front of the second part. The whole stream holds what the first part holds,
followed by what the second does, found that much later. -/
theorem decodeStream_append (codec : Codec) (t : Table) (a b : List UInt8) :
    let first := decodeStream codec t a
    let settled := a.length - first.remainder
    let second := decodeStream codec t (a.drop settled ++ b)
    first.remainder ≤ a.length ∧
      decodeStream codec t (a ++ b) =
        { messages := first.messages ++ second.messages.map fun m =>
            { m with start := settled + m.start, stop := settled + m.stop }
          removed := first.removed ++ second.removed.map fun r =>
            { r with start := settled + r.start, stop := settled + r.stop }
          skipped := first.skipped + second.skipped
          remainder := second.remainder } := by
  intro first settled second
  refine ⟨remainder_le_length 0 a, ?_⟩
  have happend : decodeFrom codec t 0 (a ++ b) =
      first.followedBy (decodeFrom codec t (0 + settled) (a.drop settled ++ b)) :=
    decodeFrom_append 0 a b
  rw [Nat.zero_add, decodeFrom_eq_shift settled] at happend
  exact happend

end Dialect.Frame
