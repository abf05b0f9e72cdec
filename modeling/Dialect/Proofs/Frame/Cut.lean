import Dialect.Frame.Stream
import Dialect.Proofs.Outcome
import Mathlib.Data.List.Infix

/-!
# Packets in bytes

A packet together with the checksum it carries stands for certain bytes (`Cut.bytes`), whether the
checksum is right or not. Cutting finds a packet exactly if its bytes stand in front
(`cut_eq_ok_iff`), so what is found does not depend on what comes behind.
-/

namespace Dialect.Frame

open Dialect.Schema (Table)

/-! ## The two bytes of a checksum -/

/-- Two bytes as a number, the low one first. -/
theorem toNat_word (low high : UInt8) : (word low high).toNat = low.toNat + 256 * high.toNat := by
  have hlow := low.toNat_lt
  have hhigh := high.toNat_lt
  -- the halves share no bits, so joining them is adding them
  have hor := Nat.shiftLeft_add_eq_or_of_lt (i := 8) hlow high.toNat
  have hmod : high.toNat * 2 ^ 8 % 2 ^ 16 = high.toNat * 2 ^ 8 := Nat.mod_eq_of_lt (by omega)
  rw [Nat.shiftLeft_eq] at hor
  rw [word, UInt16.toNat_or, UInt16.toNat_shiftLeft, UInt8.toNat_toUInt16, UInt8.toNat_toUInt16,
    show UInt16.toNat 8 % 16 = 8 from rfl, Nat.shiftLeft_eq, hmod, Nat.or_comm, ← hor]
  omega

/-- A number is that of its two halves. -/
theorem word_halves (w : UInt16) : word w.toUInt8 (w >>> 8).toUInt8 = w := by
  have hlt := w.toNat_lt
  apply UInt16.toNat_inj.mp
  rw [toNat_word, UInt16.toNat_toUInt8, UInt16.toNat_toUInt8, UInt16.toNat_shiftRight,
    show UInt16.toNat 8 % 16 = 8 from rfl, Nat.shiftRight_eq_div_pow]
  omega

/-- The low byte of two is the first. -/
theorem low_word (low high : UInt8) : (word low high).toUInt8 = low := by
  have hlow := low.toNat_lt
  apply UInt8.toNat_inj.mp
  rw [UInt16.toNat_toUInt8, toNat_word]
  omega

/-- The high byte of two is the second. -/
theorem high_word (low high : UInt8) : (word low high >>> 8).toUInt8 = high := by
  have hlow := low.toNat_lt
  have hhigh := high.toNat_lt
  apply UInt8.toNat_inj.mp
  rw [UInt16.toNat_toUInt8, UInt16.toNat_shiftRight, toNat_word,
    show UInt16.toNat 8 % 16 = 8 from rfl, Nat.shiftRight_eq_div_pow]
  omega

/-! ## The bytes of a packet -/

/-- No packet is without bytes. -/
theorem Packet.frameLength_pos (p : Packet) : 0 < p.frameLength := by
  rw [Packet.frameLength, headerLength]
  omega

namespace Cut

/-- The bytes of a packet that carries this checksum. -/
def bytes (c : Cut) : List UInt8 :=
  startByte :: (c.packet.headerBytes ++ c.packet.payload ++
    [c.received.toUInt8, (c.received >>> 8).toUInt8])

/-- The length byte is the length of the payload. -/
def Complete (c : Cut) : Prop := c.packet.payload.length < 256

instance (c : Cut) : Decidable c.Complete := inferInstanceAs (Decidable (_ < _))

/-- The bytes under the checksum stand between the start byte and the checksum. -/
theorem bytes_eq_append (c : Cut) :
    c.bytes = [startByte] ++ (c.packet.headerBytes ++ c.packet.payload) ++
      [c.received.toUInt8, (c.received >>> 8).toUInt8] :=
  rfl

/-- The bytes of a packet are as many as its header says. -/
theorem length_bytes (c : Cut) : c.bytes.length = c.packet.frameLength := by
  simp [bytes, Packet.headerBytes, Packet.frameLength, headerLength, checksumLength]
  omega

end Cut

/-- A packet is found exactly if its bytes stand in front. -/
theorem cut_eq_ok_iff {bytes : List UInt8} {c : Cut} :
    cut bytes = .ok c ↔ c.Complete ∧ c.bytes <+: bytes := by
  constructor
  · intro h
    unfold cut at h
    split at h
    · exact absurd h (by simp)
    · split at h
      · exact absurd h (by simp)
      · next hstart =>
        split at h
        · next length sequence system component id body =>
          split at h
          · next low high rest hdrop =>
            obtain rfl := Except.ok.inj h
            -- the checksum was found behind the payload, so the payload is as long as was asked
            have hlength : (body.take length.toNat).length = length.toNat := by
              have hcount := congrArg List.length hdrop
              rw [List.length_drop, List.length_cons] at hcount
              rw [List.length_take]
              omega
            refine ⟨by rw [Cut.Complete, hlength]; exact length.toNat_lt, rest, ?_⟩
            simp only [Cut.bytes, Packet.headerBytes, hlength, UInt8.ofNat_toNat, low_word,
              high_word, List.cons_append, List.nil_append, List.append_assoc]
            rw [← hdrop, List.take_append_drop, not_not.mp hstart]
          · exact absurd h (by simp)
        · exact absurd h (by simp)
  · rintro ⟨hcomplete, rest, rfl⟩
    obtain ⟨⟨⟨sequence, system, component⟩, id, payload⟩, received⟩ := c
    have hlength : (UInt8.ofNat payload.length).toNat = payload.length := by
      rw [UInt8.toNat_ofNat']
      exact Nat.mod_eq_of_lt hcomplete
    simp only [Cut.bytes, Packet.headerBytes, List.cons_append, List.nil_append,
      List.append_assoc, cut, hlength, List.drop_left, List.take_left, word_halves]
    rfl

/-- What was cut off has a checksum: the length of its payload was read from one byte. -/
theorem checksum_of_complete {c : Cut} (h : c.Complete) (t : Table) :
    c.packet.checksum t = .ok (c.packet.checksumUnder t) :=
  if_pos h

/-- A packet is sent exactly if its payload fits a one-byte length, and then with its checksum. -/
theorem Packet.encode_eq_ok_iff {p : Packet} {t : Table} {bytes : List UInt8} :
    p.encode t = .ok bytes ↔
      p.payload.length < 256 ∧ bytes = (Cut.mk p (p.checksumUnder t).value).bytes := by
  rw [Packet.encode, Packet.checksum]
  constructor
  · intro h
    obtain ⟨crc, hcrc, h⟩ := bind_eq_ok_iff.mp h
    split at hcrc
    · next hfits =>
      obtain rfl := Except.ok.inj hcrc
      exact ⟨hfits, (Except.ok.inj h).symm⟩
    · exact absurd hcrc (by simp)
  · rintro ⟨hfits, rfl⟩
    rw [if_pos hfits]
    rfl

/-- What is found in front stays found when more bytes come behind. -/
theorem cut_append {a b : List UInt8} {c : Cut} (h : cut a = .ok c) : cut (a ++ b) = .ok c := by
  obtain ⟨hcomplete, hfront⟩ := cut_eq_ok_iff.mp h
  exact cut_eq_ok_iff.mpr ⟨hcomplete, hfront.trans (List.prefix_append a b)⟩

/-- A complete packet is cut off again from whatever follows it. -/
theorem cut_bytes_append {c : Cut} (h : c.Complete) (rest : List UInt8) :
    cut (c.bytes ++ rest) = .ok c :=
  cut_eq_ok_iff.mpr ⟨h, List.prefix_append c.bytes rest⟩

/-- No packet is found in a part of one: it would be the whole one. -/
theorem exists_cut_eq_error {c : Cut} (h : c.Complete) {part : List UInt8}
    (hfront : part <+: c.bytes) (hne : part ≠ c.bytes) : ∃ fault, cut part = .error fault := by
  cases hcut : cut part with
  | error fault => exact ⟨fault, rfl⟩
  | ok c' =>
    -- what is found in the part is found in the whole, and there it is `c`
    have hwhole : cut c.bytes = .ok c' := by
      obtain ⟨rest, hrest⟩ := hfront
      exact hrest ▸ cut_append hcut
    have hsame : cut c.bytes = .ok c := cut_eq_ok_iff.mpr ⟨h, List.prefix_refl _⟩
    obtain rfl : c' = c := Except.ok.inj (hwhole.symm.trans hsame)
    have hlength := (cut_eq_ok_iff.mp hcut).2.length_le
    exact absurd (hfront.eq_of_length_le hlength) hne

end Dialect.Frame
