import Dialect.Proofs.Frame.Decode
import Mathlib.Logic.Function.Iterate
import Mathlib.Logic.Relation

/-!
# Packets that have not come whole

A part of a packet is refused with the number of bytes that are needed: those of a packet without
payload while the header is not there, and the whole packet after that (`cut_take_bytes`). So a
receiver that reads on up to this number (`readOn`) has the packet after two more readings, and one
that gets fewer bytes than it asked for (`ReadsOn`) never reads what comes behind the packet.
-/

namespace Dialect.Frame

open Dialect.Schema (Table)

/-! ## Parts of packets -/

/-- As long as the header is not there, the bytes of a packet without payload are needed. -/
theorem cut_of_short_header {behind : List UInt8} (h : behind.length + 1 < headerLength) :
    cut (startByte :: behind) =
      .error (.truncated (headerLength + checksumLength) (behind.length + 1)) := by
  unfold cut
  simp only [ne_eq, not_true_eq_false, if_false]
  split
  · next length sequence system component id body =>
    simp only [List.length_cons, headerLength] at h
    omega
  · rfl

/-- Behind the header, the length byte says how many bytes are needed. -/
theorem cut_of_short_body {length sequence system component id : UInt8} {body : List UInt8}
    (h : body.length < length.toNat + checksumLength) :
    cut (startByte :: length :: sequence :: system :: component :: id :: body) =
      .error (.truncated (headerLength + length.toNat + checksumLength)
        (body.length + headerLength)) := by
  unfold cut
  simp only [ne_eq, not_true_eq_false, if_false]
  split
  · next low high rest hdrop =>
    have hcount := congrArg List.length hdrop
    rw [List.length_drop, List.length_cons, List.length_cons] at hcount
    unfold checksumLength at h
    omega
  · rfl

/-- The first bytes of a packet, when the header is among them: behind it stand the payload and the
checksum, as far as they have come. -/
theorem Cut.exists_take_bytes (c : Cut) :
    ∃ behind : List UInt8, behind.length = c.packet.payload.length + checksumLength ∧
      ∀ n, c.bytes.take (n + headerLength) =
        startByte :: .ofNat c.packet.payload.length :: c.packet.header.sequence ::
          c.packet.header.system :: c.packet.header.component :: c.packet.messageId ::
          behind.take n :=
  ⟨_, List.length_append, fun _ => rfl⟩

/-- A part of a packet is refused. What is needed is known for certain once the header is there. -/
theorem cut_take_bytes {c : Cut} (h : c.Complete) {k : Nat} (hk : k < c.bytes.length) :
    cut (c.bytes.take k) = .error (.truncated
      (if k < headerLength then headerLength + checksumLength else c.bytes.length) k) := by
  split
  · next hheader =>
    cases k with
    | zero => rfl
    | succ n =>
      -- a start byte stands in front, and how few bytes follow it is all that is asked
      obtain ⟨behind, hbytes⟩ : ∃ behind, c.bytes = startByte :: behind := ⟨_, rfl⟩
      rw [hbytes, List.length_cons] at hk
      have hn : (behind.take n).length = n := List.length_take_of_le (by omega)
      rw [hbytes, List.take_succ_cons, cut_of_short_header (by rw [hn]; exact hheader), hn]
  · next hheader =>
    obtain ⟨n, rfl⟩ := Nat.exists_eq_add_of_le' (Nat.le_of_not_lt hheader)
    have hpayload : (UInt8.ofNat c.packet.payload.length).toNat = c.packet.payload.length := by
      rw [UInt8.toNat_ofNat']
      exact Nat.mod_eq_of_lt h
    obtain ⟨behind, hbehind, htake⟩ := c.exists_take_bytes
    rw [c.length_bytes] at hk ⊢
    unfold Packet.frameLength at hk ⊢
    have hn : (behind.take n).length = n := List.length_take_of_le (by omega)
    rw [htake, cut_of_short_body (by rw [hn, hpayload]; omega), hn, hpayload]

variable {p : Packet} {t : Table} {frame : List UInt8}

/-- A packet that is sent is as long as its header says. -/
theorem Packet.length_of_encode (h : p.encode t = .ok frame) : frame.length = p.frameLength := by
  obtain ⟨-, rfl⟩ := encode_eq_ok_iff.mp h
  exact Cut.length_bytes _

/-- No packet is shorter than header and checksum. -/
theorem Packet.le_length_of_encode (h : p.encode t = .ok frame) :
    headerLength + checksumLength ≤ frame.length := by
  rw [length_of_encode h]
  unfold frameLength
  omega

/-- A part of a packet is refused as such, with the length that is needed: at first that of the
shortest packet, and the full length from the whole header on. -/
theorem Packet.decode_take_of_encode (h : p.encode t = .ok frame) (t' : Table) {k : Nat}
    (hk : k < frame.length) :
    Packet.decode (frame.take k) t' = .error (.truncated
      (if k < headerLength then headerLength + checksumLength else frame.length) k) := by
  obtain ⟨hfits, rfl⟩ := encode_eq_ok_iff.mp h
  have hc : (Cut.mk p (p.checksumUnder t).value).Complete := hfits
  unfold Packet.decode
  rw [cut_take_bytes hc hk]
  rfl

/-! ## Reading on -/

/-- The number of bytes that a receiver wants to have: those that are needed if its packet has not
come whole, and just those that it has if there is nothing more to wait for. -/
def wanted (t : Table) (got : List UInt8) : Nat :=
  match Packet.decode got t with
  | .error (.truncated needed _) => needed
  | _ => got.length

/-- What a receiver has of a stream when it has read on up to the number of bytes that it wants. -/
def readOn (t : Table) (stream got : List UInt8) : List UInt8 := stream.take (wanted t got)

/-- A receiver reads on and gets some of the bytes that it wants, be it all of them or not. -/
structure ReadsOn (t : Table) (stream got got' : List UInt8) : Prop where
  keeps : got <+: got'
  within : got' <+: readOn t stream got

/-- A receiver waits for the shortest packet first, and knows the full length from the whole header.
-/
theorem wanted_take_of_encode (h : p.encode t = .ok frame) (t' : Table) (k : Nat) :
    wanted t' (frame.take k) =
      if k < headerLength then headerLength + checksumLength else frame.length := by
  have hlong := Packet.le_length_of_encode h
  unfold wanted
  by_cases hk : k < frame.length
  · rw [Packet.decode_take_of_encode h t' hk]
  · have hheader : ¬ k < headerLength := by omega
    -- a whole packet is read or refused for its checksum, and no more bytes can change that
    have hwhole := Packet.decode_append_of_encode h t' []
    rw [List.append_nil] at hwhole
    rw [if_neg hheader, List.take_of_length_le (Nat.le_of_not_lt hk), hwhole]
    split
    · next hread =>
      split at hread
      · exact absurd hread (by simp)
      · exact absurd hread (by simp)
    · rfl

/-- Whatever comes behind a packet, a receiver that has a part of it reads on in the packet. -/
theorem readOn_take_of_encode (h : p.encode t = .ok frame) (t' : Table) (rest : List UInt8)
    (k : Nat) :
    readOn t' (frame ++ rest) (frame.take k) =
      frame.take (if k < headerLength then headerLength + checksumLength else frame.length) := by
  have hlong := Packet.le_length_of_encode h
  unfold readOn
  rw [wanted_take_of_encode h]
  apply List.take_append_of_le_length
  split
  · exact hlong
  · exact Nat.le_refl _

/-- The first reading brings the header, the second one all the rest. -/
theorem readOn_readOn_take (h : p.encode t = .ok frame) (t' : Table) (rest : List UInt8) (k : Nat) :
    readOn t' (frame ++ rest) (readOn t' (frame ++ rest) (frame.take k)) = frame := by
  have hlong := Packet.le_length_of_encode h
  rw [readOn_take_of_encode h, readOn_take_of_encode h]
  have hheader : ¬ (if k < headerLength then headerLength + checksumLength else frame.length) <
      headerLength := by
    split
    · omega
    · omega
  rw [if_neg hheader, List.take_length]

/-- A receiver with the whole packet reads no further. -/
theorem readOn_frame (h : p.encode t = .ok frame) (t' : Table) (rest : List UInt8) :
    readOn t' (frame ++ rest) frame = frame := by
  have hlong := Packet.le_length_of_encode h
  have hheader : ¬ frame.length < headerLength := by omega
  have hread := readOn_take_of_encode h t' rest frame.length
  rwa [List.take_length, if_neg hheader, List.take_length] at hread

/-- A receiver that has a part of a packet, or all of it, has no more than that after reading on. -/
theorem ReadsOn.prefix_of_encode (h : p.encode t = .ok frame) {t' : Table}
    {rest got got' : List UInt8} (hreads : ReadsOn t' (frame ++ rest) got got')
    (hgot : got <+: frame) : got' <+: frame := by
  obtain ⟨-, hwithin⟩ := hreads
  rw [List.prefix_iff_eq_take.mp hgot, readOn_take_of_encode h] at hwithin
  exact hwithin.trans (List.take_prefix _ _)

/-- So it is after any number of readings. -/
theorem prefix_of_reflTransGen_readsOn (h : p.encode t = .ok frame) {t' : Table}
    {rest got got' : List UInt8}
    (hreads : Relation.ReflTransGen (ReadsOn t' (frame ++ rest)) got got') (hgot : got <+: frame) :
    got' <+: frame := by
  induction hreads with
  | refl => exact hgot
  | tail _ hstep ih => exact hstep.prefix_of_encode h ih

/-- **A receiver knows what it waits for.** Every packet is sent whose payload is no longer than one
byte can say. From a part of what is sent, under any table, a receiver learns that the packet is not
whole, how many bytes there are and how many it needs: more than there are, no more than the packet
has, and just as many as the packet has once the header is there. So a receiver that reads on up to
this number has the packet after two readings, or more of them, from wherever it starts. And it has
nothing of what comes behind the packet, even if it is given less than it asks for each time. -/
theorem decode_eq_truncated_of_part (p : Packet) (t : Table) (hfits : p.payload.length ≤ 255) :
    ∃ frame, p.encode t = .ok frame ∧ ∀ t' : Table,
      (∀ k < frame.length, ∃ needed,
        Packet.decode (frame.take k) t' = .error (.truncated needed k) ∧
        k < needed ∧ needed ≤ frame.length ∧ (6 ≤ k → needed = frame.length)) ∧
      ∀ (rest : List UInt8) (k : Nat),
        (∀ n, 2 ≤ n → (readOn t' (frame ++ rest))^[n] (frame.take k) = frame) ∧
        ∀ got, Relation.ReflTransGen (ReadsOn t' (frame ++ rest)) (frame.take k) got →
          got <+: frame := by
  obtain ⟨frame, hframe⟩ := Packet.exists_encode_iff.mpr hfits
  have hlong := Packet.le_length_of_encode hframe
  refine ⟨frame, hframe, fun t' => ⟨fun k hk => ?_, fun rest k => ⟨?_, fun got h => ?_⟩⟩⟩
  · refine ⟨_, Packet.decode_take_of_encode hframe t' hk, ?_, ?_, fun hheader => ?_⟩
    · unfold headerLength checksumLength
      split
      · omega
      · exact hk
    · split
      · exact hlong
      · exact Nat.le_refl _
    · exact if_neg (Nat.not_lt.mpr hheader)
  · intro n hn
    obtain ⟨n, rfl⟩ := Nat.exists_eq_add_of_le' hn
    have htwo : (readOn t' (frame ++ rest))^[2] (frame.take k) = frame :=
      readOn_readOn_take hframe t' rest k
    -- further readings find nothing that is wanted
    rw [Function.iterate_add_apply, htwo]
    exact Function.iterate_fixed (readOn_frame hframe t' rest) n
  · exact prefix_of_reflTransGen_readsOn hframe h (List.take_prefix k frame)

/-- Parts of one packet, and how a receiver gets all of it in two steps. -/
theorem decode_eq_truncated_of_part_sample :
    samplePacket.payload.length ≤ 255 ∧
      Packet.decode [] {} = .error (.truncated 8 0) ∧
      (∃ needed, Packet.decode [254, 2, 1, 2, 3] {} = .error (.truncated needed 5) ∧
        5 < needed ∧ needed ≤ 10) ∧
      Packet.decode [254, 2, 1, 2, 3, 7, 255, 254, 185] {} = .error (.truncated 10 9) ∧
      (readOn {} [254, 2, 1, 2, 3, 7, 255, 254, 185, 119, 254])^[2] [254] =
        [254, 2, 1, 2, 3, 7, 255, 254, 185, 119] := by
  have hfits : samplePacket.payload.length ≤ 255 := by decide
  have hsent : samplePacket.encode (tableWith 90) =
      .ok [254, 2, 1, 2, 3, 7, 255, 254, 185, 119] := rfl
  obtain ⟨frame, hframe, hparts⟩ := decode_eq_truncated_of_part samplePacket (tableWith 90) hfits
  obtain rfl := Except.ok.inj (hsent.symm.trans hframe)
  obtain ⟨hneeded, hread⟩ := hparts {}
  obtain ⟨needed, hheader, hmore, henough, -⟩ := hneeded 5 (by decide)
  obtain ⟨all, hlast, -, -, hall⟩ := hneeded 9 (by decide)
  rw [hall (by decide)] at hlast
  exact ⟨hfits, rfl, ⟨needed, hheader, hmore, henough⟩, hlast, (hread [254] 1).1 2 (by decide)⟩

end Dialect.Frame
